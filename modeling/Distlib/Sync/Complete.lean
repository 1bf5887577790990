import Distlib.Sync.Bookkeeping

/-!
# Whether a beat is complete on its own

A beat's change is counted from the base, and the node keeps no copy of the
base: it takes back the last change and applies the new one. Taking a change
back is not the inverse of applying it. A change that adds what the base has
already, accepted because its count adds up, takes the item away when it is
taken back; one that removes what the base never had puts it there. Every later
beat is then applied to what these have made of the base.

So what a beat is applied to is a fold over everything accepted since the base
came in (`Holdings.undone`, one statement at a time), and the last statement
that names an item decides (`mem_foldl_undone`). `World` is a node and what it
has accepted of one member since that member's base came in, whatever else it
hears meanwhile; `Follows` ties the two. A beat is complete on its own exactly
if, of every item it does not name, the last statement that does name it says
truly whether the base has it (`complete_iff`).
-/

namespace Distlib

open GuardedRun

/-! ## A change applied, and taken back -/

namespace Holdings

variable {holdings : Holdings} {items base : Finset ItemId} {item : ItemId}

/-- The change applied: what is added put on, what is removed taken off. -/
def applied (holdings : Holdings) (items : Finset ItemId) : Finset ItemId :=
  (items ∪ holdings.added.toFinset) \ holdings.removed.toFinset

/-- The change taken back: what was removed put on, what was added taken off. -/
def undone (holdings : Holdings) (items : Finset ItemId) : Finset ItemId :=
  (items ∪ holdings.removed.toFinset) \ holdings.added.toFinset

theorem mem_applied :
    item ∈ holdings.applied items ↔ (item ∈ items ∨ item ∈ holdings.added) ∧ item ∉ holdings.removed := by
  rw [applied, Finset.mem_sdiff, Finset.mem_union, List.mem_toFinset, List.mem_toFinset]

theorem mem_undone :
    item ∈ holdings.undone items ↔ (item ∈ items ∨ item ∈ holdings.removed) ∧ item ∉ holdings.added := by
  rw [undone, Finset.mem_sdiff, Finset.mem_union, List.mem_toFinset, List.mem_toFinset]

/-- What is taken back is what was there before, as far as it can be told. -/
theorem undone_applied (holdings : Holdings) (items : Finset ItemId) :
    holdings.undone (holdings.applied items) = holdings.undone items := by
  ext item
  rw [mem_undone, mem_applied, mem_undone]
  tauto

/-- What is applied again is what was applied before. -/
theorem applied_undone (holdings : Holdings) (items : Finset ItemId) :
    holdings.applied (holdings.undone items) = holdings.applied items := by
  ext item
  rw [mem_applied, mem_undone, mem_applied]
  tauto

/-- A statement as it is meant to be: what it adds is not in the base, what it
removes is, nothing is named twice, and the count is right. -/
structure WellFormed (holdings : Holdings) (base : Finset ItemId) : Prop where
  added : ∀ item ∈ holdings.added, item ∉ base
  removed : ∀ item ∈ holdings.removed, item ∈ base
  nodup_added : holdings.added.Nodup
  nodup_removed : holdings.removed.Nodup
  count : holdings.count + holdings.removed.length = base.card + holdings.added.length

/-- The set a well-formed statement states. -/
def stated (holdings : Holdings) (base : Finset ItemId) : Finset ItemId :=
  base \ holdings.removed.toFinset ∪ holdings.added.toFinset

theorem mem_stated :
    item ∈ holdings.stated base ↔
      (item ∈ base ∧ item ∉ holdings.removed) ∨ item ∈ holdings.added := by
  rw [stated, Finset.mem_union, Finset.mem_sdiff, List.mem_toFinset, List.mem_toFinset]

theorem WellFormed.card_stated (h : holdings.WellFormed base) :
    (holdings.stated base).card = holdings.count := by
  have hsub : holdings.removed.toFinset ⊆ base := by
    intro item hitem
    exact h.removed item (List.mem_toFinset.mp hitem)
  have hdisjoint : Disjoint (base \ holdings.removed.toFinset) holdings.added.toFinset := by
    rw [Finset.disjoint_left]
    intro item hbase hadded
    exact h.added item (List.mem_toFinset.mp hadded) (Finset.mem_sdiff.mp hbase).1
  have hle := Finset.card_le_card hsub
  rw [List.toFinset_card_of_nodup h.nodup_removed] at hle
  rw [stated, Finset.card_union_of_disjoint hdisjoint, Finset.card_sdiff_of_subset hsub,
    List.toFinset_card_of_nodup h.nodup_removed, List.toFinset_card_of_nodup h.nodup_added]
  have hcount := h.count
  omega

/-- The last of the statements that names an item, in either list. -/
def lastNaming (statements : List Holdings) (item : ItemId) : Option Holdings :=
  statements.reverse.find? fun holdings => item ∈ holdings.added ∨ item ∈ holdings.removed

theorem lastNaming_concat (before : List Holdings) (last : Holdings) (item : ItemId) :
    lastNaming (before ++ [last]) item =
      if item ∈ last.added ∨ item ∈ last.removed then some last else lastNaming before item := by
  rw [lastNaming, List.reverse_append, List.reverse_singleton, List.singleton_append,
    List.find?_cons]
  by_cases hnames : item ∈ last.added ∨ item ∈ last.removed
  · simp only [hnames, decide_true, if_true]
  · simp only [hnames, decide_false, if_false]
    rfl

/-- **The last statement that names an item decides** whether it is there once
all of them are taken back. -/
theorem mem_foldl_undone (base : Finset ItemId) (statements : List Holdings) (item : ItemId) :
    item ∈ statements.foldl (fun items holdings => holdings.undone items) base ↔
      (lastNaming statements item).elim (item ∈ base) fun last => item ∉ last.added := by
  induction statements using List.reverseRecOn with
  | nil => rfl
  | append_singleton before last ih =>
    rw [List.foldl_append, List.foldl_cons, List.foldl_nil, mem_undone, ih, lastNaming_concat]
    by_cases hnames : item ∈ last.added ∨ item ∈ last.removed
    · rw [if_pos hnames, Option.elim_some]
      tauto
    · rw [if_neg hnames]
      tauto

/-- Of every item `later` does not name, the last statement that does name it
has it among the added exactly if it is not in the base. -/
def SaysTruly (base : Finset ItemId) (statements : List Holdings) (later : Holdings) : Prop :=
  ∀ item, item ∉ later.added → item ∉ later.removed →
    ∀ last ∈ lastNaming statements item, item ∈ last.added ↔ item ∉ base

/-- Statements as they are meant to be say truly. -/
theorem saysTruly_of_wellFormed {statements : List Holdings}
    (h : ∀ holdings ∈ statements, holdings.WellFormed base) (later : Holdings) :
    SaysTruly base statements later := by
  intro item _ _ last hlast
  have hmem := List.mem_reverse.mp (List.mem_of_find?_eq_some hlast)
  have hnames := List.find?_some hlast
  rw [decide_eq_true_eq] at hnames
  refine ⟨(h last hmem).added item, fun hbase => ?_⟩
  rcases hnames with hadded | hremoved
  · exact hadded
  · exact absurd ((h last hmem).removed item hremoved) hbase

/-- A well-formed statement, applied to what the others have left, states what it
should exactly if they say truly of what it does not name. -/
theorem WellFormed.applied_eq_stated_iff {later : Holdings} (h : later.WellFormed base)
    (statements : List Holdings) :
    later.applied (statements.foldl (fun items holdings => holdings.undone items) base) =
      later.stated base ↔ SaysTruly base statements later := by
  have hadded := h.added
  have hremoved := h.removed
  rw [Finset.ext_iff]
  refine forall_congr' fun item => ?_
  rw [mem_applied, mem_foldl_undone, mem_stated]
  by_cases hinAdded : item ∈ later.added
  · have hnot : item ∉ later.removed := fun hgone => hadded item hinAdded (hremoved item hgone)
    simp [hinAdded, hnot]
  · by_cases hinRemoved : item ∈ later.removed
    · simp [hinAdded, hinRemoved]
    · rcases hlast : lastNaming statements item with _ | last
      · simp [hinAdded, hinRemoved]
      · simp only [Option.elim_some, hinAdded, hinRemoved, or_false, not_false_eq_true, and_true,
          true_implies, Option.mem_some_iff, forall_eq']
        tauto

end Holdings

/-! ## What restating a member comes to -/

namespace Holders

variable {holders : Holders} {member : MemberId} {named : Option ContentHash}
  {added removed : List ItemId} {held : ℕ}

/-- The set the node has for a member once it has restated it, before it counts. -/
def restated (holders : Holders) (member : MemberId) (last next : Holdings) : Finset ItemId :=
  next.applied (last.undone (holders.index.heldBy member))

/-- A known member restated: its count adds up and it holds what the change
leaves, or its count does not, and it holds nothing. -/
theorem restate_cases {last : Holdings}
    (hstated : holders.stated[member]? = some (.known named last.added last.removed held))
    (hsound : holders.SoundFor member) (next : Holdings) :
    ((holders.restated member last next).card = next.count ∧
        (holders.restate member next).stated[member]? =
          some (.known named next.added next.removed next.count) ∧
        (holders.restate member next).index.heldBy member = holders.restated member last next) ∨
      ((holders.restated member last next).card ≠ next.count ∧
        (holders.restate member next).stated[member]? = some (.broken named) ∧
        (holders.restate member next).index.heldBy member = ∅) := by
  obtain rfl := (soundFor_known hstated).mp hsound
  obtain ⟨hundone, hundonecount, -⟩ :=
    Index.shift_spec member holders.index last.removed last.added
  obtain ⟨hshifted, hshiftedcount, -⟩ := Index.shift_spec member
    (holders.index.shift member (holders.index.heldBy member).card last.removed last.added).2
    next.added next.removed
  have hset : holders.restated member last next =
      next.applied ((holders.index.shift member (holders.index.heldBy member).card
        last.removed last.added).2.heldBy member) := by
    rw [hundone]
    rfl
  replace hshifted := hshifted.trans hset.symm
  rw [hshifted] at hshiftedcount
  simp only [restate, hstated, hundonecount, hshiftedcount]
  by_cases hcount : (holders.restated member last next).card = next.count
  · refine Or.inl ⟨hcount, ?_⟩
    rw [if_pos hcount]
    refine ⟨?_, hshifted⟩
    rw [← hcount]
    exact Std.ExtTreeMap.getElem?_insert_self
  · refine Or.inr ⟨hcount, ?_⟩
    rw [if_neg hcount]
    exact ⟨Std.ExtTreeMap.getElem?_insert_self, Index.heldBy_clear⟩

/-- A base in the map, and the first change on top of it. -/
theorem known_cases {base : Finset ItemId} (named : Option ContentHash)
    (hheld : holders.index.heldBy member = base) (hcount : held = base.card) (next : Holdings) :
    ((next.applied base).card = next.count ∧
        (holders.known member named held next).stated[member]? =
          some (.known named next.added next.removed next.count) ∧
        (holders.known member named held next).index.heldBy member = next.applied base) ∨
      ((next.applied base).card ≠ next.count ∧
        (holders.known member named held next).stated[member]? = some (.broken named) ∧
        (holders.known member named held next).index.heldBy member = ∅) := by
  subst hcount
  let unchanged : Holdings := ⟨base.card, named, [], []⟩
  let listed : Holders :=
    { holders with stated := holders.stated.insert member (.known named [] [] base.card) }
  have hstated : listed.stated[member]? =
      some (.known named unchanged.added unchanged.removed base.card) :=
    Std.ExtTreeMap.getElem?_insert_self
  have hsound : listed.SoundFor member := (soundFor_known hstated).mpr (congrArg _ hheld.symm)
  have hrestated : listed.restated member unchanged next = next.applied base := by
    rw [restated, Holdings.undone, show listed.index.heldBy member = base from hheld]
    simp [unchanged]
  rw [← hrestated]
  exact restate_cases hstated hsound next

/-- A base that is not taken in leaves everything as it was. -/
theorem arrived_ignored {base : ContentHash} {items : List ItemId}
    (h : (holders.arrived member base items).1 ≠ true) :
    (holders.arrived member base items).2 = holders := by
  rw [arrived] at h ⊢
  split at h
  · split at h
    · exact absurd rfl h
    · rename_i hwanted
      simp only [hwanted, if_false]
  · rfl

theorem isKnown_of_known (h : holders.stated[member]? = some (.known named added removed held)) :
    holders.isKnown member = true := by
  rw [isKnown, h]

end Holders

/-! ## A node, and what it has accepted of one member -/

/-- What a node has taken in of a member since its base came in. -/
structure Account where
  /-- the base the statements name, and what its list holds -/
  named : Option ContentHash
  base : Finset ItemId
  /-- the statements accepted, the first first -/
  statements : List Holdings
  deriving DecidableEq

namespace Account

/-- A statement accepted: one more against the same base, or the first that has
no base. -/
def accept (holdings : Holdings) : Option Account → Account
  | some account =>
    if account.named = holdings.base then
      { account with statements := account.statements ++ [holdings] }
    else ⟨holdings.base, ∅, [holdings]⟩
  | none => ⟨holdings.base, ∅, [holdings]⟩

/-- What the statements, taken back one after the other, make of the base. -/
def left (account : Account) : Finset ItemId :=
  account.statements.foldl (fun items holdings => holdings.undone items) account.base

/-- A node, the last it heard of a member, and the member's account: none while
what the member holds is not known. -/
structure World where
  holders : Holders
  latest : Option Holdings
  account : Option Account

namespace World

def new : World := ⟨.new, none, none⟩

/-- One call, about this member or any other. A statement is accepted if the
member is known with it; a base that comes in starts with the last heard. -/
def step (member : MemberId) (w : World) (c : Holders.Call) : World :=
  let holders := w.holders.call c
  match c with
  | .heard from? holdings =>
    if from? = member then
      ⟨holders, some holdings,
        if holders.isKnown member then some (accept holdings w.account) else none⟩
    else { w with holders }
  | .arrived from? base items =>
    if from? = member ∧ (w.holders.arrived from? base items).1 = true then
      { w with
        holders
        account :=
          if holders.isKnown member then
            w.latest.map fun holdings => ⟨some base, items.toFinset, [holdings]⟩
          else none }
    else { w with holders }
  | .retainMembers isMember => if isMember member then { w with holders } else ⟨holders, none, none⟩
  | .failed _ _ _ => { w with holders }
  | .setFailedCopies _ => { w with holders }

theorem step_heard (w : World) (member : MemberId) (holdings : Holdings) :
    w.step member (.heard member holdings) =
      ⟨(w.holders.heard member holdings).2, some holdings,
        if (w.holders.heard member holdings).2.isKnown member then
          some (accept holdings w.account) else none⟩ :=
  if_pos rfl

/-- A base that is not taken in leaves everything as it was. -/
theorem step_arrived (w : World) (member : MemberId) (base : ContentHash) (items : List ItemId) :
    w.step member (.arrived member base items) =
      if (w.holders.arrived member base items).1 = true then
        ⟨(w.holders.arrived member base items).2, w.latest,
          if (w.holders.arrived member base items).2.isKnown member then
            w.latest.map fun holdings => ⟨some base, items.toFinset, [holdings]⟩
          else none⟩
      else { w with holders := (w.holders.arrived member base items).2 } := by
  simp only [step, true_and]
  rfl

/-- Keeping an account changes nothing of what is kept account of. -/
theorem step_holders (w : World) (member : MemberId) (c : Holders.Call) :
    (w.step member c).holders = w.holders.call c := by
  cases c with
  | heard from? holdings =>
    rw [step]
    split <;> rfl
  | arrived from? base items =>
    rw [step]
    split <;> rfl
  | retainMembers isMember =>
    rw [step]
    split <;> rfl
  | failed from? base retry => rfl
  | setFailedCopies failedCopies => rfl

theorem run_holders (member : MemberId) (calls : List Holders.Call) :
    (exec (World.step member) World.new calls).holders = exec Holders.call Holders.new calls :=
  (List.foldl_hom World.holders fun w c => (step_holders w member c).symm).symm

end World

/-- What the node has of the member is what its account says: its statements are
against the base named, what it holds is the last change applied to some set, and
taken back from that set the change leaves what all the statements leave of the
base. -/
def Follows (w : World) (member : MemberId) : Prop :=
  match w.holders.stated[member]? with
  | some (.known named added removed _) =>
    ∃ (account : Account) (last : Holdings) (before : Finset ItemId),
      w.account = some account ∧ account.named = named ∧
      last.added = added ∧ last.removed = removed ∧
      w.holders.index.heldBy member = last.applied before ∧ account.left = last.undone before
  | some (.unknown _ latest _) => w.account = none ∧ w.latest = some latest
  | some (.broken _) => w.account = none
  | none => w.account = none

variable {w : World} {member : MemberId}

/-- The account of a known member. -/
theorem Follows.of_known {account : Account} {last : Holdings} {held : ℕ} {before : Finset ItemId}
    (hstated : w.holders.stated[member]? =
      some (.known account.named last.added last.removed held))
    (haccount : w.account = some account)
    (hheld : w.holders.index.heldBy member = last.applied before)
    (hleft : account.left = last.undone before) : Follows w member := by
  rw [Follows, hstated]
  exact ⟨account, last, before, haccount, rfl, rfl, rfl, hheld, hleft⟩

/-- What the account says of a member stands while nothing touches it. -/
theorem Follows.same (h : Follows w member) {next : Holders}
    (hsame : Holders.SameFor member w.holders next) : Follows { w with holders := next } member := by
  rw [Follows] at h ⊢
  rw [hsame.1, hsame.2]
  exact h

/-- An account ends, or is there, as the member is known. -/
theorem Follows.none_or_known (h : Follows w member) :
    w.account = none ∨ ∃ (account : Account) (last : Holdings) (held : ℕ),
      w.account = some account ∧
      w.holders.stated[member]? = some (.known account.named last.added last.removed held) ∧
      last.undone (w.holders.index.heldBy member) = account.left := by
  rw [Follows] at h
  split at h
  · rename_i named added removed held hstated
    obtain ⟨account, last, before, haccount, rfl, rfl, rfl, hheld, hleft⟩ := h
    refine Or.inr ⟨account, last, held, haccount, hstated, ?_⟩
    rw [hheld, Holdings.undone_applied, hleft]
  · exact Or.inl h.1
  · exact Or.inl h
  · exact Or.inl h

/-- What a call makes of the account of a member it leaves known or broken: the
account it gives, if the change adds up, and none if it does not. -/
theorem follows_of_cases {holders : Holders} {latest : Option Holdings} {account : Account}
    (last : Holdings) (before : Finset ItemId)
    (hcases : ((last.applied before).card = last.count ∧
        holders.stated[member]? =
          some (.known account.named last.added last.removed last.count) ∧
        holders.index.heldBy member = last.applied before) ∨
      ((last.applied before).card ≠ last.count ∧
        holders.stated[member]? = some (.broken account.named) ∧
        holders.index.heldBy member = ∅))
    (hleft : account.left = last.undone before) :
    Follows ⟨holders, latest, if holders.isKnown member then some account else none⟩ member := by
  rcases hcases with ⟨-, hstated, hheld⟩ | ⟨-, hstated, -⟩
  · refine Follows.of_known hstated ?_ hheld hleft
    simp only [Holders.isKnown_of_known hstated, if_true]
  · rw [Follows, hstated]
    simp [Holders.isKnown, hstated]

/-- A member heard from for the first time, or with a new base. -/
theorem follows_heardAnew (holders : Holders) (member : MemberId) (holdings : Holdings) :
    let next := (holders.heardAnew member holdings).2
    Follows ⟨next, some holdings,
      if next.isKnown member then some ⟨holdings.base, ∅, [holdings]⟩ else none⟩ member := by
  intro next
  rcases hbase : holdings.base with _ | base
  · let cleared : Holders := { holders with index := holders.index.clear member }
    have hcleared : cleared.index.heldBy member = ∅ := Index.heldBy_clear
    have hnext : next = cleared.known member none 0 holdings := by
      simp only [next, cleared, Holders.heardAnew, hbase]
    refine follows_of_cases holdings ∅ ?_ rfl
    rw [hnext]
    exact Holders.known_cases none hcleared Finset.card_empty.symm holdings
  · have hstated : next.stated[member]? = some (.unknown base holdings true) := by
      simp only [next, Holders.heardAnew, hbase, Std.ExtTreeMap.getElem?_insert_self]
    rw [Follows]
    simp only [hstated, Holders.isKnown]
    exact ⟨if_neg Bool.false_ne_true, trivial⟩

/-- One more statement of a member that is known, against its base. -/
theorem Follows.restate (hsound : w.holders.SoundFor member) {account : Account}
    {last holdings : Holdings} {held : ℕ}
    (hstated : w.holders.stated[member]? =
      some (.known account.named last.added last.removed held))
    (hleft : last.undone (w.holders.index.heldBy member) = account.left) :
    let next := w.holders.restate member holdings
    Follows ⟨next, some holdings,
      if next.isKnown member then
        some { account with statements := account.statements ++ [holdings] } else none⟩ member := by
  intro next
  refine follows_of_cases holdings _ (Holders.restate_cases hstated hsound holdings) ?_
  rw [hleft, left, left, List.foldl_append]
  rfl

theorem Follows.heard (h : Follows w member) (hsound : w.holders.SoundFor member)
    (holdings : Holdings) : Follows (w.step member (.heard member holdings)) member := by
  rw [World.step_heard]
  rcases h.none_or_known with hnone | ⟨account, last, held, haccount, hstated, hleft⟩
  · rw [hnone]
    rw [Follows] at h
    rw [Holders.heard]
    rcases hstated : w.holders.stated[member]? with _ | stated
    · exact follows_heardAnew w.holders member holdings
    · rw [hstated] at h
      cases stated with
      | known named added removed held =>
        obtain ⟨account, -, -, haccount, -⟩ := h
        rw [hnone] at haccount
        cases haccount
      | unknown wanted latest fetching =>
        by_cases hbase : some wanted = holdings.base
        · rw [Follows]
          simp only [if_pos hbase, Holders.isKnown, Std.ExtTreeMap.getElem?_insert_self]
          exact ⟨if_neg Bool.false_ne_true, trivial⟩
        · simp only [if_neg hbase]
          exact follows_heardAnew w.holders member holdings
      | broken named =>
        by_cases hbase : named = holdings.base
        · rw [Follows]
          simp only [if_pos hbase, hstated, Holders.isKnown]
          exact if_neg Bool.false_ne_true
        · simp only [if_neg hbase]
          exact follows_heardAnew w.holders member holdings
  · rw [haccount, accept, Holders.heard, hstated]
    simp only
    split
    · exact Follows.restate hsound hstated hleft
    · exact follows_heardAnew w.holders member holdings

theorem Follows.arrived (h : Follows w member) (hsound : w.holders.SoundFor member)
    (base : ContentHash) (items : List ItemId) :
    Follows (w.step member (.arrived member base items)) member := by
  rw [World.step_arrived]
  rw [Follows] at h
  split
  · rename_i htaken
    rw [Holders.arrived] at htaken ⊢
    rcases hstated : w.holders.stated[member]? with _ | stated
    · simp [hstated] at htaken
    · cases stated with
      | known named added removed held => simp [hstated] at htaken
      | broken named => simp [hstated] at htaken
      | unknown wanted latest fetching =>
        simp only [hstated] at htaken h ⊢
        split at htaken
        · rename_i hwanted
          rw [if_pos hwanted, h.2, Option.map_some]
          obtain ⟨hset, hcount, -⟩ := Index.addAll_spec member w.holders.index items
          rw [hsound.heldBy (by simp [hstated]), Finset.card_empty, Nat.zero_add] at hcount
          rw [hsound.heldBy (by simp [hstated]), Finset.empty_union] at hset
          let listed : Holders :=
            { w.holders with index := (Index.addAll member w.holders.index items).2 }
          have hlisted : listed.index.heldBy member = items.toFinset := hset
          refine follows_of_cases latest items.toFinset ?_ rfl
          exact Holders.known_cases (some base) hlisted (hset ▸ hcount) latest
        · cases htaken
  · rename_i hignored
    rw [Holders.arrived_ignored hignored]
    exact h

theorem Follows.failed (h : Follows w member) (base : ContentHash) (retry : Bool) :
    Follows { w with holders := w.holders.failed member base retry } member := by
  rw [Holders.failed]
  split
  · rename_i wanted latest fetching hstated
    have hwaits : w.account = none ∧ w.latest = some latest := by
      rw [Follows, hstated] at h
      exact h
    split
    · exact h
    · split
      · rw [Follows]
        simp only [Std.ExtTreeMap.getElem?_insert_self]
        exact hwaits
      · rw [Follows]
        simp only [Std.ExtTreeMap.getElem?_insert_self]
        exact hwaits.1
  · exact h

theorem Follows.retainMembers (h : Follows w member) (isMember : MemberId → Bool) :
    Follows (w.step member (.retainMembers isMember)) member := by
  simp only [World.step, Holders.call]
  by_cases hkeep : isMember member = true
  · rw [if_pos hkeep]
    refine h.same ⟨?_, ?_⟩
    · cases hstated : w.holders.stated[member]? <;> simp [Holders.retainMembers, hkeep, hstated]
    · exact Index.heldBy_retain.trans (if_pos hkeep)
  · rw [if_neg hkeep]
    have hgone : (w.holders.retainMembers isMember).stated[member]? = none := by
      simp [Holders.retainMembers, hkeep]
    rw [Follows]
    simp only [hgone]

/-- One call, whoever it is about, keeps the account. -/
theorem Follows.step (h : Follows w member) (hsound : w.holders.SoundFor member)
    (c : Holders.Call) : Follows (w.step member c) member := by
  cases c with
  | heard from? holdings =>
    by_cases hfrom : from? = member
    · exact hfrom ▸ h.heard hsound holdings
    · rw [World.step, if_neg hfrom]
      exact h.same (Holders.sameFor_heard (Ne.symm hfrom) holdings)
  | arrived from? base items =>
    by_cases hfrom : from? = member
    · exact hfrom ▸ h.arrived hsound base items
    · rw [World.step, if_neg fun hboth => hfrom hboth.1]
      exact h.same (Holders.sameFor_arrived (Ne.symm hfrom) base items)
  | failed from? base retry =>
    by_cases hfrom : from? = member
    · exact hfrom ▸ h.failed base retry
    · exact h.same (Holders.sameFor_failed (Ne.symm hfrom) base retry)
  | retainMembers isMember => exact h.retainMembers isMember
  | setFailedCopies failedCopies => exact h.same ⟨rfl, rfl⟩

/-- A node that has taken any calls, and one member's account. -/
theorem follows_run (member : MemberId) (calls : List Holders.Call) :
    let w := exec (World.step member) World.new calls
    w.holders.Sound ∧ Follows w member := by
  refine exec_invariant (I := fun w => w.holders.Sound ∧ Follows w member) ?_ calls ?_
  · rintro w c ⟨hsound, hfollows⟩
    rw [World.step_holders]
    exact ⟨(hsound.call c).1, hfollows.step (hsound member) c⟩
  · refine ⟨Holders.sound_new, ?_⟩
    rw [Follows]
    simp [World.new, Holders.new]

/-- **A beat is complete on its own exactly if what it does not name was said
truly.** After any calls, about this member or any other, let the node have a
member's base and any statements accepted against it, and let `later` be a
well-formed statement against the same base. The node then knows the member and
attributes to it the base without the removed and with the added, if and only if
of every item `later` does not name, the last statement accepted that names it
has it among its added exactly if the base does not have it. -/
theorem complete_iff (member : MemberId) (calls : List Holders.Call) (account : Account)
    (later : Holdings)
    (haccount : (exec (World.step member) World.new calls).account = some account)
    (hnamed : later.base = account.named) (hlater : later.WellFormed account.base) :
    let after := ((exec (World.step member) World.new calls).holders.heard member later).2
    (after.isKnown member = true ∧
        after.index.heldBy member =
          account.base \ later.removed.toFinset ∪ later.added.toFinset) ↔
      Holdings.SaysTruly account.base account.statements later := by
  obtain ⟨hsound, hfollows⟩ := follows_run member calls
  generalize exec (World.step member) World.new calls = w at *
  intro after
  rcases hfollows.none_or_known with hnone | ⟨account', last, held, hsome, hstated, hleft⟩
  · rw [hnone] at haccount
    cases haccount
  obtain rfl := Option.some.inj (hsome.symm.trans haccount)
  have hafter : after = w.holders.restate member later := by
    simp only [after, Holders.heard, hstated, hnamed, if_true]
  have happlied : w.holders.restated member last later = later.applied account'.left := by
    rw [Holders.restated, hleft]
  rw [hafter, ← hlater.applied_eq_stated_iff, ← left, ← happlied]
  change _ ∧ _ = later.stated account'.base ↔ _
  rcases Holders.restate_cases hstated (hsound member) later with
    ⟨-, hknown, hheld⟩ | ⟨hcount, hbroken, -⟩
  · rw [hheld]
    exact and_iff_right (Holders.isKnown_of_known hknown)
  · -- what does not add up is not what was stated, whose count is right
    have hunknown : (w.holders.restate member later).isKnown member ≠ true := by
      simp [Holders.isKnown, hbroken]
    refine ⟨fun h => absurd h.1 hunknown, fun heq => ?_⟩
    rw [heq] at hcount
    exact absurd hlater.card_stated hcount

/-- A member's first statement against base 7, and the base's list. -/
def listedAs (first : Holdings) (items : List ItemId) : List Holders.Call :=
  [.heard ⟨5⟩ first, .arrived ⟨5⟩ ⟨7⟩ items]

/-- One of two items gone and a third come, then the first back: each beat says
it all. -/
theorem complete_iff_exchanged :
    let w := exec (World.step ⟨5⟩) World.new (listedAs ⟨2, some ⟨7⟩, [⟨3⟩], [⟨1⟩]⟩ [⟨1⟩, ⟨2⟩])
    let after := (w.holders.heard ⟨5⟩ ⟨3, some ⟨7⟩, [⟨3⟩], []⟩).2
    after.isKnown ⟨5⟩ = true ∧ after.index.heldBy ⟨5⟩ = {⟨1⟩, ⟨2⟩} \ ∅ ∪ {⟨3⟩} := by
  have hlater : Holdings.WellFormed ⟨3, some ⟨7⟩, [⟨3⟩], []⟩ {⟨1⟩, ⟨2⟩} :=
    ⟨by decide, by decide, by decide, by decide, by decide⟩
  have hfirst : Holdings.WellFormed ⟨2, some ⟨7⟩, [⟨3⟩], [⟨1⟩]⟩ {⟨1⟩, ⟨2⟩} :=
    ⟨by decide, by decide, by decide, by decide, by decide⟩
  refine (complete_iff ⟨5⟩ (listedAs ⟨2, some ⟨7⟩, [⟨3⟩], [⟨1⟩]⟩ [⟨1⟩, ⟨2⟩])
    ⟨some ⟨7⟩, {⟨1⟩, ⟨2⟩}, [⟨2, some ⟨7⟩, [⟨3⟩], [⟨1⟩]⟩]⟩ ⟨3, some ⟨7⟩, [⟨3⟩], []⟩
    (by decide +kernel) rfl hlater).mpr ?_
  refine Holdings.saysTruly_of_wellFormed ?_ _
  intro holdings hmem
  rw [List.mem_singleton.mp hmem]
  exact hfirst

/-- A member adds the one item its base has, and then states the base as it is:
it is judged broken. Another adds one of its two and removes one it never had: it
stays known, and one of its items is taken for another. -/
theorem not_complete :
    let addsAgain := exec (World.step ⟨5⟩) World.new (listedAs ⟨1, some ⟨7⟩, [⟨1⟩], []⟩ [⟨1⟩])
    let afterAdds := (addsAgain.holders.heard ⟨5⟩ ⟨1, some ⟨7⟩, [], []⟩).2
    let removesNone := exec (World.step ⟨5⟩) World.new
      (listedAs ⟨2, some ⟨7⟩, [⟨1⟩], [⟨3⟩]⟩ [⟨1⟩, ⟨2⟩])
    let afterRemoves := (removesNone.holders.heard ⟨5⟩ ⟨2, some ⟨7⟩, [], []⟩).2
    (addsAgain.account = some ⟨some ⟨7⟩, {⟨1⟩}, [⟨1, some ⟨7⟩, [⟨1⟩], []⟩]⟩ ∧
        Holdings.WellFormed ⟨1, some ⟨7⟩, [], []⟩ {⟨1⟩} ∧ afterAdds.isKnown ⟨5⟩ = false) ∧
      removesNone.account = some ⟨some ⟨7⟩, {⟨1⟩, ⟨2⟩}, [⟨2, some ⟨7⟩, [⟨1⟩], [⟨3⟩]⟩]⟩ ∧
        Holdings.WellFormed ⟨2, some ⟨7⟩, [], []⟩ {⟨1⟩, ⟨2⟩} ∧
        afterRemoves.isKnown ⟨5⟩ = true ∧ afterRemoves.index.heldBy ⟨5⟩ = {⟨2⟩, ⟨3⟩} := by
  refine ⟨⟨by decide +kernel, ⟨by decide, by decide, by decide, by decide, by decide⟩,
    by decide +kernel⟩, by decide +kernel, ⟨by decide, by decide, by decide, by decide, by decide⟩,
    by decide +kernel, by decide +kernel⟩

end Account

end Distlib
