import Distlib.Lib.GuardedRun
import Distlib.Sync.Beats

/-!
# The holdings stay in step, whatever is said

What other members state is not checked before it is applied: lists may overlap, repeat
an item or name one in both, and the count may be anything. Two representations have to
stay in step all the same. The index has a row for each item, naming the members that
hold it, and for each member that is known a count is carried beside it.

`Sound` says they are: a known member's count is the number of rows that name it, and
no row names anybody else. Each call keeps it, for any input. With it, no subtraction of a
count underflows: the program with checked subtractions (`checkedCall`) comes to the
same as the one without. `bookkeeping_sound` puts it together.
-/

namespace Distlib

open GuardedRun

/-! ## Checked subtractions -/

/-- `shift` with its subtraction checked. -/
def Index.checkedShift (index : Index) (member : MemberId) (held : ℕ) (coming going : List ItemId) :
    Option (ℕ × Index) :=
  let came := addAll member index coming
  let went := removeAll member came.2 going
  if went.1 ≤ held + came.1 then some (held + came.1 - went.1, went.2) else none

/-- From the right count nothing underflows. -/
theorem Index.checkedShift_eq (index : Index) (member : MemberId) (coming going : List ItemId) :
    index.checkedShift member (index.heldBy member).card coming going =
      some (index.shift member (index.heldBy member).card coming going) := by
  obtain ⟨-, hcame, -⟩ := addAll_spec member index coming
  obtain ⟨-, hwent, -⟩ := removeAll_spec member (addAll member index coming).2 going
  rw [checkedShift, shift, if_pos (by omega)]

namespace Holders

/-- `restate`, with every subtraction checked. -/
def checkedRestate (holders : Holders) (member : MemberId) (holdings : Holdings) : Option Holders :=
  match holders.stated[member]? with
  | some (.known base added removed held) => do
    let undone ← holders.index.checkedShift member held removed added
    let shifted ← undone.2.checkedShift member undone.1 holdings.added holdings.removed
    if shifted.1 = holdings.count then
      some { holders with
        index := shifted.2
        stated := holders.stated.insert member
          (.known base holdings.added holdings.removed shifted.1) }
    else
      some { holders with
        index := shifted.2.clear member
        stated := holders.stated.insert member (.broken base) }
  | _ => some holders

/-- `known`, with every subtraction checked. -/
def checkedKnown (holders : Holders) (member : MemberId) (base : Option ContentHash) (held : ℕ)
    (holdings : Holdings) : Option Holders :=
  { holders with
    stated := holders.stated.insert member (.known base [] [] held) }.checkedRestate member holdings

/-- `heardAnew`, with every subtraction checked. -/
def checkedHeardAnew (holders : Holders) (member : MemberId) (holdings : Holdings) :
    Option Holders :=
  let holders := { holders with index := holders.index.clear member }
  match holdings.base with
  | some base =>
    some { holders with stated := holders.stated.insert member (.unknown base holdings true) }
  | none => holders.checkedKnown member none 0 holdings

/-- `heard`, with every subtraction checked. -/
def checkedHeard (holders : Holders) (member : MemberId) (holdings : Holdings) : Option Holders :=
  match holders.stated[member]? with
  | some (.known base _ _ _) =>
    if base = holdings.base then holders.checkedRestate member holdings
    else holders.checkedHeardAnew member holdings
  | some (.unknown base _ _) =>
    if some base = holdings.base then
      some { holders with stated := holders.stated.insert member (.unknown base holdings true) }
    else holders.checkedHeardAnew member holdings
  | some (.broken base) =>
    if base = holdings.base then some holders else holders.checkedHeardAnew member holdings
  | none => holders.checkedHeardAnew member holdings

/-- `arrived`, with every subtraction checked. -/
def checkedArrived (holders : Holders) (member : MemberId) (base : ContentHash)
    (items : List ItemId) : Option Holders :=
  match holders.stated[member]? with
  | some (.unknown wanted latest _) =>
    if wanted = base then
      let added := Index.addAll member holders.index items
      { holders with index := added.2 }.checkedKnown member (some base) added.1 latest
    else some holders
  | _ => some holders

/-! ## What each call keeps -/

/-- A known member's count is the number of rows that name it, and no row names a member
that is not known. -/
def SoundFor (holders : Holders) (member : MemberId) : Prop :=
  match holders.stated[member]? with
  | some (.known _ _ _ held) => held = (holders.index.heldBy member).card
  | _ => holders.index.heldBy member = ∅

/-- The two representations are in step. -/
def Sound (holders : Holders) : Prop := ∀ member, holders.SoundFor member

section Keeps

variable {holders next : Holders} {member : MemberId}

/-- A call leaves the books of those it is not about. -/
theorem SoundFor.same (h : holders.SoundFor member) (hsame : SameFor member holders next) :
    next.SoundFor member := by
  rw [SoundFor, hsame.1, hsame.2]
  exact h

/-- A call about one member keeps what it keeps for that member, and leaves the others. -/
theorem Sound.of_sameFor (h : holders.Sound) (hmember : next.SoundFor member)
    (hothers : ∀ other, other ≠ member → SameFor other holders next) : next.Sound := by
  intro other
  by_cases heq : other = member
  · exact heq ▸ hmember
  · exact (h other).same (hothers other heq)

/-- Of a member whose holdings are known the number is that of the index. -/
theorem soundFor_known {base : Option ContentHash} {added removed : List ItemId} {held : ℕ}
    (hstated : holders.stated[member]? = some (.known base added removed held)) :
    holders.SoundFor member ↔ held = (holders.index.heldBy member).card := by
  rw [SoundFor, hstated]

/-- Of a member whose holdings are not known there is nothing in the index. -/
theorem soundFor_of_heldBy (h : holders.index.heldBy member = ∅)
    (hstated : ∀ base added removed held,
      holders.stated[member]? ≠ some (.known base added removed held)) :
    holders.SoundFor member := by
  rw [SoundFor]
  split
  · rename_i hknown
    exact absurd hknown (hstated _ _ _ _)
  · exact h

theorem SoundFor.heldBy (h : holders.SoundFor member)
    (hstated : ∀ base added removed held,
      holders.stated[member]? ≠ some (.known base added removed held)) :
    holders.index.heldBy member = ∅ := by
  rw [SoundFor] at h
  split at h
  · rename_i hknown
    exact absurd hknown (hstated _ _ _ _)
  · exact h

/-- Restating a member, whatever it states. -/
theorem SoundFor.restate (h : holders.SoundFor member) (holdings : Holdings) :
    (holders.restate member holdings).SoundFor member ∧
      holders.checkedRestate member holdings = some (holders.restate member holdings) := by
  rcases hstated : holders.stated[member]? with _ | stated
  · simp only [Holders.restate, checkedRestate, hstated]
    exact ⟨h, trivial⟩
  · cases stated with
    | known base added removed held =>
      obtain rfl := (soundFor_known hstated).mp h
      -- the old change taken back, then the new one applied: each from the right count
      obtain ⟨-, hundone, -⟩ := Index.shift_spec member holders.index removed added
      obtain ⟨-, hshifted, -⟩ := Index.shift_spec member
        (holders.index.shift member (holders.index.heldBy member).card removed added).2
        holdings.added holdings.removed
      simp only [Holders.restate, checkedRestate, hstated, Index.checkedShift_eq, hundone,
        Option.bind_eq_bind, Option.bind_some]
      split
      · refine ⟨?_, rfl⟩
        rw [soundFor_known Std.ExtTreeMap.getElem?_insert_self]
        exact hshifted
      · exact ⟨soundFor_of_heldBy Index.heldBy_clear (by simp), rfl⟩
    | unknown base latest fetching =>
      simp only [Holders.restate, checkedRestate, hstated]
      exact ⟨h, trivial⟩
    | broken base =>
      simp only [Holders.restate, checkedRestate, hstated]
      exact ⟨h, trivial⟩

/-- A member's base and the first change on top of it. -/
theorem soundFor_known_of_card {held : ℕ} (hheld : held = (holders.index.heldBy member).card)
    (base : Option ContentHash) (holdings : Holdings) :
    (holders.known member base held holdings).SoundFor member ∧
      holders.checkedKnown member base held holdings =
        some (holders.known member base held holdings) := by
  refine SoundFor.restate ?_ holdings
  rw [soundFor_known Std.ExtTreeMap.getElem?_insert_self]
  exact hheld

/-- A statement that starts anew is put into an index that was cleared of the member. -/
theorem soundFor_heardAnew (holders : Holders) (member : MemberId) (holdings : Holdings) :
    (holders.heardAnew member holdings).2.SoundFor member ∧
      holders.checkedHeardAnew member holdings = some (holders.heardAnew member holdings).2 := by
  rcases hbase : holdings.base with _ | base
  · simp only [heardAnew, checkedHeardAnew, hbase]
    exact soundFor_known_of_card (by rw [Index.heldBy_clear, Finset.card_empty]) none holdings
  · simp only [heardAnew, checkedHeardAnew, hbase]
    exact ⟨soundFor_of_heldBy Index.heldBy_clear (by simp), trivial⟩

/-- A beat leaves sound books, and no subtraction goes below zero on the way. -/
theorem SoundFor.heard (h : holders.SoundFor member) (holdings : Holdings) :
    (holders.heard member holdings).2.SoundFor member ∧
      holders.checkedHeard member holdings = some (holders.heard member holdings).2 := by
  rcases hstated : holders.stated[member]? with _ | stated
  · simp only [Holders.heard, checkedHeard, hstated]
    exact soundFor_heardAnew holders member holdings
  · cases stated with
    | known base added removed held =>
      simp only [Holders.heard, checkedHeard, hstated]
      split
      · exact h.restate holdings
      · exact soundFor_heardAnew holders member holdings
    | unknown base latest fetching =>
      simp only [Holders.heard, checkedHeard, hstated]
      split
      · exact ⟨soundFor_of_heldBy (h.heldBy (by simp [hstated])) (by simp), rfl⟩
      · exact soundFor_heardAnew holders member holdings
    | broken base =>
      simp only [Holders.heard, checkedHeard, hstated]
      split
      · exact ⟨h, rfl⟩
      · exact soundFor_heardAnew holders member holdings

/-- So does a list that arrives. -/
theorem SoundFor.arrived (h : holders.SoundFor member) (base : ContentHash)
    (items : List ItemId) :
    (holders.arrived member base items).2.SoundFor member ∧
      holders.checkedArrived member base items = some (holders.arrived member base items).2 := by
  rcases hstated : holders.stated[member]? with _ | stated
  · simp only [Holders.arrived, checkedArrived, hstated]
    exact ⟨h, trivial⟩
  · cases stated with
    | unknown wanted latest fetching =>
      simp only [Holders.arrived, checkedArrived, hstated]
      split
      · -- nothing named the member before, so what is new is what is held
        have hnone := h.heldBy (by simp [hstated])
        obtain ⟨-, hadded, -⟩ := Index.addAll_spec member holders.index items
        rw [hnone, Finset.card_empty, Nat.zero_add] at hadded
        let later : Holders := { holders with index := (Index.addAll member holders.index items).2 }
        have hheld : (Index.addAll member holders.index items).1 =
            (later.index.heldBy member).card := hadded
        exact soundFor_known_of_card hheld _ _
      · exact ⟨h, rfl⟩
    | known base added removed held =>
      simp only [Holders.arrived, checkedArrived, hstated]
      exact ⟨h, trivial⟩
    | broken base =>
      simp only [Holders.arrived, checkedArrived, hstated]
      exact ⟨h, trivial⟩

/-- A fetch that failed touches no book. -/
theorem SoundFor.failed (h : holders.SoundFor member) (base : ContentHash) (retry : Bool) :
    (holders.failed member base retry).SoundFor member := by
  rw [Holders.failed]
  split
  · rename_i hstated
    have hnone := h.heldBy (by simp [hstated])
    split
    · exact h
    · split
      · exact soundFor_of_heldBy hnone (by simp)
      · exact soundFor_of_heldBy hnone (by simp)
  · exact h

/-- Whoever is forgotten is struck from both books. -/
theorem Sound.retainMembers (h : holders.Sound) (isMember : MemberId → Bool) :
    (holders.retainMembers isMember).Sound := by
  intro member
  have hheld : (holders.retainMembers isMember).index.heldBy member =
      if isMember member then holders.index.heldBy member else ∅ := Index.heldBy_retain
  by_cases hkeep : isMember member = true
  · refine (h member).same ⟨?_, by rw [hheld, if_pos hkeep]⟩
    cases hstated : holders.stated[member]? <;> simp [Holders.retainMembers, hkeep, hstated]
  · refine soundFor_of_heldBy (by rw [hheld, if_neg hkeep]) ?_
    simp [Holders.retainMembers, hkeep]

end Keeps

/-! ## Any calls -/

/-- One call, with anything it may be given. -/
inductive Call : Type where
  | heard (member : MemberId) (holdings : Holdings)
  | arrived (member : MemberId) (base : ContentHash) (items : List ItemId)
  | failed (member : MemberId) (base : ContentHash) (retry : Bool)
  | retainMembers (isMember : MemberId → Bool)
  | setFailedCopies (failedCopies : Finset (MemberId × ItemId))

/-- What a call makes of the holdings. -/
def call (holders : Holders) : Call → Holders
  | .heard member holdings => (holders.heard member holdings).2
  | .arrived member base items => (holders.arrived member base items).2
  | .failed member base retry => holders.failed member base retry
  | .retainMembers isMember => holders.retainMembers isMember
  | .setFailedCopies failedCopies => (holders.setFailedCopies failedCopies).2

/-- The same, with every subtraction checked. -/
def checkedCall (holders : Holders) : Call → Option Holders
  | .heard member holdings => holders.checkedHeard member holdings
  | .arrived member base items => holders.checkedArrived member base items
  | .failed member base retry => some (holders.failed member base retry)
  | .retainMembers isMember => some (holders.retainMembers isMember)
  | .setFailedCopies failedCopies => some (holders.setFailedCopies failedCopies).2

/-- One call keeps the two in step, and nothing underflows. -/
theorem Sound.call {holders : Holders} (h : holders.Sound) (c : Call) :
    (holders.call c).Sound ∧ holders.checkedCall c = some (holders.call c) := by
  cases c with
  | heard member holdings =>
    obtain ⟨hsound, hchecked⟩ := (h member).heard holdings
    exact ⟨h.of_sameFor hsound fun other hne => sameFor_heard hne holdings, hchecked⟩
  | arrived member base items =>
    obtain ⟨hsound, hchecked⟩ := (h member).arrived base items
    exact ⟨h.of_sameFor hsound fun other hne => sameFor_arrived hne base items, hchecked⟩
  | failed member base retry =>
    exact ⟨h.of_sameFor ((h member).failed base retry) fun other hne => sameFor_failed hne base retry,
      rfl⟩
  | retainMembers isMember => exact ⟨h.retainMembers isMember, rfl⟩
  | setFailedCopies failedCopies => exact ⟨fun member => (h member).same ⟨rfl, rfl⟩, rfl⟩

theorem sound_new : new.Sound := by
  intro member
  refine soundFor_of_heldBy ?_ (by simp [new])
  ext item
  simp [Index.mem_heldBy, Index.holders, new, Index.empty]

theorem Sound.checkedCalls (calls : List Call) :
    ∀ {holders : Holders}, holders.Sound →
      calls.foldlM checkedCall holders = some (exec Holders.call holders calls) := by
  induction calls with
  | nil => intro holders _; rfl
  | cons c rest ih =>
    intro holders h
    obtain ⟨hsound, hchecked⟩ := h.call c
    rw [List.foldlM_cons, hchecked, Option.bind_eq_bind, Option.bind_some, ih hsound, exec_cons]

/-- **The holdings stay in step.** After any calls, with anything the other members may
state: no subtraction has underflowed, a known member's count is the number of rows
that name it, and every row names somebody, nobody twice, and known members only. -/
theorem bookkeeping_sound (calls : List Call) :
    calls.foldlM checkedCall new = some (exec Holders.call new calls) ∧
      (∀ member base added removed held,
        (exec Holders.call new calls).stated[member]? = some (.known base added removed held) →
        held = ((exec Holders.call new calls).index.heldBy member).card) ∧
      ∀ (item : ItemId) (members : List MemberId),
        (exec Holders.call new calls).index.map[item]? = some members →
        members.Nodup ∧ members ≠ [] ∧
          ∀ member ∈ members, (exec Holders.call new calls).isKnown member = true := by
  have hsound : (exec Holders.call new calls).Sound :=
    exec_invariant (fun _ c h => (h.call c).1) calls sound_new
  refine ⟨sound_new.checkedCalls calls, fun member base added removed held hstated =>
    (soundFor_known hstated).mp (hsound member), fun item members hrow => ?_⟩
  obtain ⟨hnodup, hne⟩ := (exec Holders.call new calls).index.sound item members hrow
  refine ⟨hnodup, hne, fun member hmember => ?_⟩
  -- a row that names the member is one it holds, so it is known
  have hheld : item ∈ (exec Holders.call new calls).index.heldBy member := by
    rw [Index.mem_heldBy, Index.holders, hrow]
    exact hmember
  by_contra hunknown
  rw [(hsound member).heldBy fun base added removed held hstated => hunknown (by
    rw [isKnown, hstated])] at hheld
  cases hheld

end Holders

end Distlib
