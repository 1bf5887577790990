import Distlib.Consensus.Roles
import Distlib.Lib.GuardedRun
import Distlib.Net.Directory

/-!
# How far a node says it has got

A voter counts the entries Raft hands it and a follower keeps a cursor. A node's
*position* is the larger of the two, whichever of them moves, and is signed into
every statement it makes about its address, to tell a newer statement from an
older one.

Within a role the position only grows. Between roles it does not: a promotion
starts the projection again from nothing, and both counts with it, so a node that
had read a long log is back at zero until it has replayed it. What it signs in
that window is older, to every peer, than what it signed before.

`Keeps` is what a run must avoid for the position to be what it is used as: that
reset, above all; and then to copy a cursor that is behind over one that is
ahead, and to start again from a disk that is behind the memory.
-/

namespace Distlib

open IndexedLog GuardedRun

namespace Position

/-- A node, and every address statement it has signed, in the order of signing. -/
structure World where
  me : MemberId
  inner : Inner
  statements : List SignedAddress

inductive Event : Type where
  | apply (entries : List Entry) (fate : Fate)
  | applyFollowed (protocolMax : UInt32) (upTo : ℕ) (events : Log SignedEvent) (fate : Fate)
  | installSnapshot (snapshot : StoredSnapshot) (fate : Fate)
  | preparePromotion (fate : Fate)
  | resetForPromotion (fate : Fate)
  | resumeFollowing (fate : Fate)
  | restart
  /-- the node signs where it is, as of its position -/
  | announceAddress (addr : NodeAddr) (signature : Signature)

namespace World

def step (sig : Signing) (world : World) : Event → World
  | .apply entries fate => { world with inner := (world.inner.apply sig entries fate).2 }
  | .applyFollowed protocolMax upTo events fate =>
    { world with inner := (world.inner.applyFollowed sig protocolMax upTo events fate).2 }
  | .installSnapshot snapshot fate =>
    { world with inner := (world.inner.installSnapshot snapshot fate).2 }
  | .preparePromotion fate => { world with inner := (world.inner.preparePromotion world.me fate).2 }
  | .resetForPromotion fate => { world with inner := (world.inner.resetForPromotion fate).2 }
  | .resumeFollowing fate => { world with inner := (world.inner.resumeFollowing fate).2 }
  | .restart => { world with inner := world.inner.fromDatabase }
  | .announceAddress addr signature =>
    { world with
      statements := world.statements ++ [⟨world.me, addr, world.inner.position, signature⟩] }

/-- What the callers see to: Raft applies at increasing indices and installs at
log ids not behind, and a page starts at the cursor it was asked from. -/
def Legal (world : World) : Event → Prop
  | .apply entries _ =>
    (∀ entry ∈ entries, ∀ logId ∈ world.inner.applied.lastApplied,
      logId.index < entry.logId.index) ∧
      entries.Pairwise fun a b => a.logId.index < b.logId.index
  | .applyFollowed _ upTo events _ =>
    world.inner.applied.followedUpto < upTo ∧
      ∀ event ∈ events, world.inner.applied.followedUpto < event.1
  | .installSnapshot snapshot _ =>
    world.inner.applied.lastAppliedIndex ≤ snapshot.data.lastAppliedIndex
  | _ => True

/-- When the position is not taken back: nothing is reset that had been read, no
cursor is copied over one further ahead, and nothing is lost with the memory. -/
def Keeps (world : World) : Event → Prop
  | .preparePromotion _ => world.inner.position = 0
  | .resetForPromotion _ => world.inner.position = 0
  | .resumeFollowing _ =>
    world.inner.applied.followedUpto ≤ world.inner.applied.lastAppliedIndex
  | .installSnapshot snapshot _ => world.inner.applied.followedUpto ≤ snapshot.data.position
  | .restart => world.inner.position ≤ (world.inner.durable.getD .empty).position
  | _ => True

instance (world : World) : (event : Event) → Decidable (world.Legal event)
  | .apply _ _ => inferInstanceAs (Decidable (_ ∧ _))
  | .applyFollowed _ _ _ _ => inferInstanceAs (Decidable (_ ∧ _))
  | .installSnapshot _ _ => inferInstanceAs (Decidable (_ ≤ _))
  | .preparePromotion _ | .resetForPromotion _ | .resumeFollowing _ | .restart
  | .announceAddress _ _ => inferInstanceAs (Decidable True)

instance (world : World) : (event : Event) → Decidable (world.Keeps event)
  | .preparePromotion _ | .resetForPromotion _ => inferInstanceAs (Decidable (_ = 0))
  | .resumeFollowing _ => inferInstanceAs (Decidable (_ ≤ _))
  | .installSnapshot _ _ => inferInstanceAs (Decidable (_ ≤ _))
  | .restart => inferInstanceAs (Decidable (_ ≤ _))
  | .apply _ _ | .applyFollowed _ _ _ _ | .announceAddress _ _ =>
    inferInstanceAs (Decidable True)

end World

/-! ## The two counts -/

theorem applyEntries_followedUpto (sig : Signing) (entries : List Entry) :
    ∀ (applied : Applied),
      (applied.applyEntries sig entries).2.followedUpto = applied.followedUpto := by
  induction entries with
  | nil => intro applied; rfl
  | cons entry rest ih =>
    intro applied
    have hentry : (applied.applyEntry sig entry).2.followedUpto = applied.followedUpto := by
      rw [Applied.applyEntry]
      rcases entry.payload with _ | event | membership <;> rfl
    exact (ih _).trans hentry

/-- Entries at increasing indices leave the last applied index no lower. -/
theorem applyEntries_lastAppliedIndex (sig : Signing) {entries : List Entry} :
    ∀ {applied : Applied},
      (∀ entry ∈ entries, ∀ logId ∈ applied.lastApplied, logId.index < entry.logId.index) →
      entries.Pairwise (fun a b => a.logId.index < b.logId.index) →
      applied.lastAppliedIndex ≤ (applied.applyEntries sig entries).2.lastAppliedIndex := by
  induction entries with
  | nil => intro applied _ _; exact le_rfl
  | cons entry rest ih =>
    intro applied habove hsorted
    obtain ⟨hfirst, hrest⟩ := List.pairwise_cons.mp hsorted
    have hnext : (applied.applyEntry sig entry).2.lastApplied = some entry.logId :=
      Applied.applyEntry_lastApplied applied entry
    have hmoved : applied.lastAppliedIndex ≤ (applied.applyEntry sig entry).2.lastAppliedIndex := by
      rw [Applied.lastAppliedIndex, Applied.lastAppliedIndex, hnext]
      rcases hlast : applied.lastApplied with _ | logId
      · exact Nat.zero_le _
      · exact (habove entry List.mem_cons_self logId hlast).le
    refine hmoved.trans (ih ?_ hrest)
    intro later hlater logId hlogId
    rw [hnext] at hlogId
    obtain rfl := Option.mem_some_iff.mp hlogId
    exact hfirst later hlater

/-- Wherever the loop over a page stops, the cursor is not behind where it was. -/
theorem followEvents_cursor (sig : Signing) (protocolMax : UInt32) (followed : Followed) {upTo : ℕ}
    {events : Log SignedEvent} (hupTo : followed.lastApplied < upTo)
    (habove : ∀ event ∈ events, followed.lastApplied < event.1) :
    followed.lastApplied ≤ (followEvents sig protocolMax upTo events followed).1 := by
  obtain ⟨taken, rest, rfl, hpart⟩ := followEvents_part sig protocolMax upTo events followed
  rcases hpart.cursor with ⟨-, hcursor⟩ | ⟨-, hcursor⟩
  · rw [hcursor]
    exact hupTo.le
  · rw [hcursor, lastIndex]
    rcases hlast : taken.getLast? with _ | last
    · exact le_rfl
    · exact (habove last (List.mem_append_left _ (List.mem_of_getLast? hlast))).le

namespace World

variable {sig : Signing} {world : World}

/-! ## One event -/

/-- **An event that keeps to its condition does not take the position back.** -/
theorem position_step {event : Event} (hlegal : world.Legal event) (hkeeps : world.Keeps event) :
    world.inner.position ≤ (world.step sig event).inner.position := by
  cases event with
  | apply entries fate =>
    obtain ⟨habove, hsorted⟩ := hlegal
    have hindex := applyEntries_lastAppliedIndex sig habove hsorted
    have hcursor := applyEntries_followedUpto sig entries world.inner.applied
    have hafter : (world.step sig (.apply entries fate)).inner.applied =
        (world.inner.applied.applyEntries sig entries).2 := by
      cases fate <;> rfl
    rw [Inner.position, Inner.position, hafter, Applied.position, Applied.position, hcursor]
    exact max_le_max hindex le_rfl
  | applyFollowed protocolMax upTo events fate =>
    obtain ⟨hupTo, habove⟩ := hlegal
    have hcursor : world.inner.applied.followedUpto ≤
        (world.inner.toStateMachineStore.follow sig protocolMax upTo events).1 :=
      followEvents_cursor sig protocolMax ⟨_, _, _, world.inner.applied.followedUpto⟩ hupTo habove
    cases fate with
    | unread => exact le_rfl
    | unwritten => exact max_le_max le_rfl hcursor
    | stored => exact max_le_max le_rfl hcursor
  | installSnapshot snapshot fate =>
    have hahead : world.inner.position ≤ snapshot.data.position :=
      max_le ((show world.inner.applied.lastAppliedIndex ≤ _ from hlegal).trans (le_max_left _ _))
        hkeeps
    cases fate with
    | unread => exact le_rfl
    | unwritten => exact hahead
    | stored => exact hahead
  | preparePromotion fate =>
    have hzero : world.inner.position = 0 := hkeeps
    rw [hzero]
    exact Nat.zero_le _
  | resetForPromotion fate =>
    have hzero : world.inner.position = 0 := hkeeps
    rw [hzero]
    exact Nat.zero_le _
  | resumeFollowing fate =>
    have hbehind : world.inner.applied.followedUpto ≤ world.inner.applied.lastAppliedIndex := hkeeps
    have hcopied : world.inner.position ≤
        max world.inner.applied.lastAppliedIndex world.inner.applied.lastAppliedIndex :=
      max_le_max le_rfl hbehind
    cases fate <;> exact hcopied
  | restart =>
    have hdisk : (world.step sig .restart).inner.applied = world.inner.durable.getD .empty :=
      StateMachineStore.fromDatabase_applied _
    rw [Inner.position, Inner.position, hdisk]
    exact hkeeps
  | announceAddress addr signature => exact le_rfl

/-- What a node has signed: its own statements, in order, none of them ahead of
its position. -/
structure Said (me : MemberId) (world : World) : Prop where
  self : world.me = me
  own : ∀ statement ∈ world.statements, statement.member = me
  ascending : world.statements.Pairwise fun older newer => older.applied ≤ newer.applied
  reached : ∀ statement ∈ world.statements, statement.applied ≤ world.inner.position

theorem Said.step {me : MemberId} (h : Said me world) {event : Event} (hlegal : world.Legal event)
    (hkeeps : world.Keeps event) : Said me (world.step sig event) := by
  have hmoved : world.inner.position ≤ (world.step sig event).inner.position :=
    position_step hlegal hkeeps
  cases event with
  | announceAddress addr signature =>
    refine ⟨h.self, ?_, ?_, ?_⟩
    · intro statement hstatement
      rcases List.mem_append.mp hstatement with hold | hnew
      · exact h.own statement hold
      · rw [List.mem_singleton.mp hnew]
        exact h.self
    · refine List.pairwise_append.mpr ⟨h.ascending, List.pairwise_singleton _ _, ?_⟩
      intro older holder newer hnewer
      rw [List.mem_singleton.mp hnewer]
      exact h.reached older holder
    · intro statement hstatement
      rcases List.mem_append.mp hstatement with hold | hnew
      · exact h.reached statement hold
      · rw [List.mem_singleton.mp hnew]
        exact le_rfl
  | _ => exact ⟨h.self, h.own, h.ascending, fun statement hs => (h.reached statement hs).trans hmoved⟩

end World

/-! ## Whole runs -/

/-- A node of `me`, with any store, that has not said where it is. -/
def silent (me : MemberId) (inner : Inner) : World := ⟨me, inner, []⟩

/-- **The position only grows where `Keeps` is kept.** Over any run of a node
through its roles, restarts and failed transactions, whose steps all keep to
their conditions:

* between any two moments the position does not go back;
* the positions of the statements it has signed are in the order of signing;
* and a peer that holds one of them takes any later one it hears and can use,
  whatever else its directory holds. -/
theorem position_monotonic (sig : Signing) (me : MemberId) (inner : Inner)
    (before after : List Event)
    (hlegal : Along (World.step sig) World.Legal (silent me inner) (before ++ after))
    (hkeeps : Along (World.step sig) World.Keeps (silent me inner) (before ++ after)) :
    let first := exec (World.step sig) (silent me inner) before
    let second := exec (World.step sig) (silent me inner) (before ++ after)
    first.inner.position ≤ second.inner.position ∧
    (second.statements.Pairwise fun older newer => older.applied ≤ newer.applied) ∧
    ∀ older newer, [older, newer].Sublist second.statements →
      ∀ (Endpoint : Type) [DecidableEq Endpoint] (signing : AddressSigning)
        (toEndpointAddr : NodeAddr → MemberId → Except String Endpoint)
        (directory : Directory Endpoint),
        Directory.Acceptable signing toEndpointAddr newer →
        directory.signedAddresses[me]? = some older →
        (directory.learn signing toEndpointAddr newer).2.signedAddresses[me]? = some newer := by
  intro first second
  have hboth : Along (World.step sig) (fun world event => world.Legal event ∧ world.Keeps event)
      (silent me inner) (before ++ after) := hlegal.and hkeeps
  obtain ⟨hbefore, hafter⟩ := along_append.mp hboth
  have hsaid : World.Said me second :=
    Along.invariant (I := World.Said me) (fun world event h hok => h.step hok.1 hok.2)
      ⟨rfl, by simp [silent], by simp [silent], by simp [silent]⟩ hboth
  refine ⟨?_, hsaid.ascending, ?_⟩
  · have hsecond : second = exec (World.step sig) first after := exec_append ..
    rw [hsecond]
    exact Along.related (I := fun _ => True)
      (R := fun world later => world.inner.position ≤ later.inner.position)
      (fun world event _ hok => ⟨trivial, World.position_step hok.1 hok.2⟩) (fun _ => le_rfl)
      (fun _ _ _ hab hbc => hab.trans hbc) trivial hafter
  · intro older newer hsublist Endpoint _ signing toEndpointAddr directory hacceptable hheld
    have hle : older.applied ≤ newer.applied := by
      simpa using hsaid.ascending.sublist hsublist
    have hown : newer.member = me := hsaid.own newer (hsublist.subset (by simp))
    subst hown
    refine Directory.learn_newer directory hacceptable ?_
    intro held hmem
    rw [hheld] at hmem
    obtain rfl := Option.mem_some_iff.mp hmem
    exact hle

/-! ## Two nodes that change their role -/

/-- A peer that takes every signature and dials an address as it is. -/
def trusting : AddressSigning where
  postcard _ _ _ := .ok []
  verify _ _ _ := true

def dial (addr : NodeAddr) (_ : MemberId) : Except String NodeAddr := .ok addr

/-- The node says that it is reached through `relay`. -/
def saysAt (relay : String) : Event := .announceAddress ⟨some relay, ∅⟩ ⟨0⟩

/-- The statement it makes at `position`. -/
def saidAt (relay : String) (position : ℕ) : SignedAddress := ⟨alice, ⟨some relay, ∅⟩, position, ⟨0⟩⟩

/-- A peer that knows one statement. -/
def knowing (statement : SignedAddress) : Directory NodeAddr :=
  ((⟨∅, ∅, 0⟩ : Directory NodeAddr).learn trusting dial statement).2

/-- A voter applies an entry and says where it is. -/
def voted : List Event := [.apply [⟨⟨1, alice, 4⟩, .blank⟩] .stored, saysAt "one"]

/-- It is retired, follows on, and says where it is again, after a restart. -/
def retired : List Event :=
  [.resumeFollowing .stored, .applyFollowed 1 7 [] .stored, .restart, saysAt "two"]

/-- Its second statement replaces the first. -/
theorem position_monotonic_retired :
    (exec (World.step .accepting) (silent alice .fresh) voted).inner.position ≤
        (exec (World.step .accepting) (silent alice .fresh) (voted ++ retired)).inner.position ∧
      ((knowing (saidAt "one" 4)).learn trusting dial (saidAt "two" 7)).2.signedAddresses[alice]? =
        some (saidAt "two" 7) := by
  have h := position_monotonic .accepting alice .fresh voted retired (by decide +kernel)
    (by decide +kernel)
  refine ⟨h.1, h.2.2 (saidAt "one" 4) (saidAt "two" 7) ?_ NodeAddr trusting dial _ ?_ ?_⟩
  · have hsaid : (exec (World.step .accepting) (silent alice .fresh) (voted ++ retired)).statements =
        [saidAt "one" 4, saidAt "two" 7] := by decide +kernel
    rw [hsaid]
  · exact ⟨rfl, by decide, rfl⟩
  · decide +kernel

/-- A follower reads the log through index 5, says where it is, is made a voter,
and says where it is. -/
def promoted : List Event :=
  [.applyFollowed 1 5 [(1, .signedBy alice 0 (.groupFounded ⟨9⟩ [(⟨alice, "alice"⟩, default)] default))]
    .stored, saysAt "one", .preparePromotion .stored, saysAt "two"]

/-- The position falls from 5 to 0, and a peer that holds the first statement
drops the second. -/
theorem position_falls_at_promotion :
    Along (World.step .accepting) World.Legal (silent alice .fresh) promoted ∧
      (exec (World.step .accepting) (silent alice .fresh) (promoted.take 2)).inner.position = 5 ∧
      (exec (World.step .accepting) (silent alice .fresh) promoted).inner.position = 0 ∧
      (exec (World.step .accepting) (silent alice .fresh) promoted).statements =
        [saidAt "one" 5, saidAt "two" 0] ∧
      ((knowing (saidAt "one" 5)).learn trusting dial (saidAt "two" 0)).2.signedAddresses[alice]? =
        some (saidAt "one" 5) := by
  refine ⟨by decide +kernel, by decide +kernel, by decide +kernel, by decide +kernel, ?_⟩
  have hheld : (knowing (saidAt "one" 5)).signedAddresses[alice]? = some (saidAt "one" 5) := by
    decide +kernel
  rw [Directory.learn_older _ hheld (by decide)]
  exact hheld

end Position

end Distlib
