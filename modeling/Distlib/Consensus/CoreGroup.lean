import Distlib.Consensus.LogStore
import Distlib.Lib.GuardedRun

/-!
# Bringing Raft's voters to what the log says

The log says who the core group is and where each of them is reached; Raft has
voters and learners of its own. The leader compares the two, submits *one* change,
and compares again. `nextChange` is the comparison, and a priority: a wrong
address first, then members Raft does not know, then learners that have caught up,
and only when everybody the log wants votes is anybody taken out.

Each change repairs one kind of difference, and one of them can bring another kind
back: a learner kept from an earlier demotion is promoted at the address it had
then. So what shrinks is a sum in which a member that does not vote yet counts
twice (`differences`).

openraft's part is assumed as it documents it: what a change does to its
configuration (`submit`), that every voter has an address, and that a learner it
replicates to catches up some time. When there is nothing to change, learners the
log does not want and that have retired are forgotten.
-/

namespace Distlib

open GuardedRun

namespace CoreGroup

/-! ## What Raft has -/

/-- Raft's configuration between two changes: every node has an address, and some
of them vote. -/
structure Configuration where
  voters : Finset MemberId
  nodes : OrdMap MemberId NodeAddr
  addressed : ∀ member ∈ voters, member ∈ nodes

/-- What the leader's metrics say. -/
structure Metrics where
  /-- how far each node has the leader's log, where that is reported -/
  replication : Option (OrdMap MemberId (Option LogId))
  /-- the index of the last entry the leader has applied -/
  committed : Option ℕ

/-- Whether replication to a node has caught up with what is committed; no
information counts as behind, unless nothing is committed. -/
def Metrics.caughtUp (metrics : Metrics) (member : MemberId) : Bool :=
  let matched := (metrics.replication.bind fun progress => progress[member]?.join).map LogId.index
  match metrics.committed with
  | none => true
  | some committed => matched.any fun index => committed ≤ index

namespace Configuration

/-- The voters openraft currently has, each with the address it would dial. -/
def currentVoters (config : Configuration) : OrdMap MemberId NodeAddr :=
  config.nodes.filter fun member _ => member ∈ config.voters

/-- Every node openraft has that is not a voter, against whether replication to it
has caught up. -/
def learnerProgress (config : Configuration) (metrics : Metrics) : OrdMap MemberId Bool :=
  (config.nodes.filter fun member _ => member ∉ config.voters).map fun member _ =>
    metrics.caughtUp member

end Configuration

/-! ## The comparison -/

/-- The one change to submit next. -/
inductive Change : Type where
  /-- voters whose recorded address the log has moved -/
  | readdress (moved : OrdMap MemberId NodeAddr)
  /-- voters the log no longer lists -/
  | remove (departed : Finset MemberId)
  /-- members the log makes voters that Raft has never heard of -/
  | learn (joining : OrdMap MemberId NodeAddr)
  /-- learners the log makes voters, which have caught up -/
  | promote (ready : Finset MemberId)
  /-- learners the log makes voters, which have not caught up yet -/
  | catchingUp (behind : List MemberId)

/-- What one comparison says to do, given what the log wants and what Raft has. -/
def nextChange (wanted voters : OrdMap MemberId NodeAddr) (learners : OrdMap MemberId Bool) :
    Option Change :=
  if wanted.isEmpty then none
  else
    let moved := wanted.filter fun member addr => voters[member]?.any fun current => current ≠ addr
    if !moved.isEmpty then some (.readdress moved)
    else
      let joining := wanted.keys.filter fun member => !voters.contains member
      let (known, unknown) := joining.partition fun member => learners.contains member
      let strangers : OrdMap MemberId NodeAddr :=
        .ofList (unknown.filterMap fun member => wanted[member]?.map fun addr => (member, addr))
          compare
      if !strangers.isEmpty then some (.learn strangers)
      else
        let (ready, behind) := known.partition fun member => learners[member]?.getD false
        if !ready.isEmpty then some (.promote ready.toFinset)
        else if !behind.isEmpty then some (.catchingUp behind)
        else
          let departed := voters.keys.filter fun member => !wanted.contains member
          if !departed.isEmpty then some (.remove departed.toFinset) else none

namespace Configuration

/-- What openraft's configuration is after a change: addresses are set, nodes are
added, known nodes become voters, and removed voters are kept as learners. -/
def submit (config : Configuration) : Change → Configuration
  | .readdress moved =>
    { config with
      nodes := config.nodes ∪ moved
      addressed := fun member hvotes =>
        Std.ExtTreeMap.mem_union_of_left (config.addressed member hvotes) }
  | .learn joining =>
    -- a node that is there already keeps its address
    { config with
      nodes := joining ∪ config.nodes
      addressed := fun member hvotes =>
        Std.ExtTreeMap.mem_union_of_right (config.addressed member hvotes) }
  | .promote ready =>
    { config with
      voters := config.voters ∪ ready.filter fun member => member ∈ config.nodes
      addressed := fun member hvotes =>
        (Finset.mem_union.mp hvotes).elim (config.addressed member)
          fun hready => (Finset.mem_filter.mp hready).2 }
  | .remove departed =>
    { config with
      voters := config.voters \ departed
      addressed := fun member hvotes => config.addressed member (Finset.mem_sdiff.mp hvotes).1 }
  | .catchingUp _ => config

/-- Forgets learners that have retired and that the log does not want. -/
def retireLearners (config : Configuration) (wanted : OrdMap MemberId NodeAddr)
    (retired : Finset MemberId) : Configuration where
  voters := config.voters
  nodes := config.nodes.filter fun member _ =>
    member ∈ config.voters ∨ wanted.contains member ∨ member ∉ retired
  addressed := by
    intro member hvotes
    obtain ⟨addr, haddr⟩ := OrdMap.mem_iff_exists.mp (config.addressed member hvotes)
    exact OrdMap.mem_iff_exists.mpr
      ⟨addr, OrdMap.getElem?_filter_eq_some.mpr ⟨haddr, by simp [hvotes]⟩⟩

end Configuration

/-- What the leader finds at one comparison: its metrics, and which learners answer
that they have retired. -/
structure Surroundings where
  metrics : Metrics
  retired : Finset MemberId

namespace Configuration

/-- What the comparison answers. -/
def change (config : Configuration) (wanted : OrdMap MemberId NodeAddr) (found : Surroundings) :
    Option Change :=
  nextChange wanted config.currentVoters (config.learnerProgress found.metrics)

/-- One comparison, and what is submitted. -/
def pass (config : Configuration) (wanted : OrdMap MemberId NodeAddr) (found : Surroundings) :
    Configuration :=
  match config.change wanted found with
  | some change => config.submit change
  | none => config.retireLearners wanted found.retired

/-- The configuration after so many comparisons. -/
def passes (config : Configuration) (wanted : ℕ → OrdMap MemberId NodeAddr)
    (found : ℕ → Surroundings) : ℕ → Configuration
  | 0 => config
  | t + 1 => (config.passes wanted found t).pass (wanted t) (found t)

/-! ## The differences -/

variable (config : Configuration) (wanted : OrdMap MemberId NodeAddr)

/-- Wanted voters at another address than the wanted one. -/
def misplaced : Finset MemberId :=
  (OrdMap.keySet wanted ∩ config.voters).filter fun member => config.nodes[member]? ≠ wanted[member]?

/-- Wanted members that do not vote. -/
def joining : Finset MemberId := OrdMap.keySet wanted \ config.voters

/-- Wanted members Raft does not know. -/
def unknown : Finset MemberId := OrdMap.keySet wanted \ OrdMap.keySet config.nodes

/-- Voters that are not wanted. -/
def departed : Finset MemberId := config.voters \ OrdMap.keySet wanted

/-- One, if there is anything. -/
def flag (members : Finset MemberId) : ℕ := if members = ∅ then 0 else 1

/-- How much there is to repair. -/
def differences : ℕ :=
  2 * (config.joining wanted).card + flag (config.misplaced wanted) + flag (config.unknown wanted) +
    flag (config.departed wanted)

/-- What a comparison can answer, and what it has then found. -/
inductive Answer (found : Surroundings) : Option Change → Prop
  | readdress {moved : OrdMap MemberId NodeAddr}
      (moves : ∀ member addr, moved[member]? = some addr ↔
        wanted[member]? = some addr ∧ member ∈ config.misplaced wanted)
      (nonempty : (config.misplaced wanted).Nonempty) : Answer found (some (.readdress moved))
  | learn {strangers : OrdMap MemberId NodeAddr} (placed : config.misplaced wanted = ∅)
      (learns : ∀ member, member ∈ strangers ↔ member ∈ config.unknown wanted)
      (nonempty : (config.unknown wanted).Nonempty) : Answer found (some (.learn strangers))
  | promote {ready : Finset MemberId} (placed : config.misplaced wanted = ∅)
      (known : config.unknown wanted = ∅)
      (promotes : ready = (config.joining wanted).filter fun member => found.metrics.caughtUp member)
      (nonempty : ready.Nonempty) : Answer found (some (.promote ready))
  | catchingUp {behind : List MemberId} (placed : config.misplaced wanted = ∅)
      (known : config.unknown wanted = ∅)
      (waits : ∀ member ∈ behind, member ∈ config.joining wanted)
      (unready : ∀ member ∈ config.joining wanted, found.metrics.caughtUp member = false)
      (nonempty : behind ≠ []) : Answer found (some (.catchingUp behind))
  | remove {departed : Finset MemberId} (placed : config.misplaced wanted = ∅)
      (voting : config.joining wanted = ∅) (removes : departed = config.departed wanted)
      (nonempty : departed.Nonempty) : Answer found (some (.remove departed))
  | nothing (placed : config.misplaced wanted = ∅) (voting : config.joining wanted = ∅)
      (all : config.departed wanted = ∅) : Answer found none

variable {config wanted}

theorem getElem?_currentVoters {member : MemberId} {addr : NodeAddr} :
    config.currentVoters[member]? = some addr ↔
      config.nodes[member]? = some addr ∧ member ∈ config.voters := by
  rw [currentVoters, OrdMap.getElem?_filter_eq_some, decide_eq_true_eq]

theorem mem_currentVoters {member : MemberId} :
    member ∈ config.currentVoters ↔ member ∈ config.voters := by
  rw [OrdMap.mem_iff_exists]
  simp only [getElem?_currentVoters]
  constructor
  · rintro ⟨addr, -, hvotes⟩
    exact hvotes
  · intro hvotes
    obtain ⟨addr, haddr⟩ := OrdMap.mem_iff_exists.mp (config.addressed member hvotes)
    exact ⟨addr, haddr, hvotes⟩

theorem getElem?_learnerProgress {metrics : Metrics} {member : MemberId} {ready : Bool} :
    (config.learnerProgress metrics)[member]? = some ready ↔
      member ∈ config.nodes ∧ member ∉ config.voters ∧ metrics.caughtUp member = ready := by
  rw [learnerProgress, Std.ExtTreeMap.getElem?_map, Option.map_eq_some_iff]
  simp only [OrdMap.getElem?_filter_eq_some, decide_eq_true_eq]
  constructor
  · rintro ⟨addr, ⟨haddr, hnot⟩, rfl⟩
    exact ⟨OrdMap.mem_iff_exists.mpr ⟨addr, haddr⟩, hnot, rfl⟩
  · rintro ⟨hmem, hnot, rfl⟩
    obtain ⟨addr, haddr⟩ := OrdMap.mem_iff_exists.mp hmem
    exact ⟨addr, ⟨haddr, hnot⟩, rfl⟩

theorem mem_learnerProgress {metrics : Metrics} {member : MemberId} :
    member ∈ config.learnerProgress metrics ↔ member ∈ config.nodes ∧ member ∉ config.voters := by
  rw [OrdMap.mem_iff_exists]
  simp only [getElem?_learnerProgress]
  constructor
  · rintro ⟨ready, hmem, hnot, -⟩
    exact ⟨hmem, hnot⟩
  · rintro ⟨hmem, hnot⟩
    exact ⟨_, hmem, hnot, rfl⟩

/-! ## What the comparison finds -/

theorem mem_misplaced {member : MemberId} :
    member ∈ config.misplaced wanted ↔
      member ∈ wanted ∧ member ∈ config.voters ∧ config.nodes[member]? ≠ wanted[member]? := by
  simp [misplaced, and_assoc]

theorem mem_joining {member : MemberId} :
    member ∈ config.joining wanted ↔ member ∈ wanted ∧ member ∉ config.voters := by
  simp [joining]

theorem mem_unknown {member : MemberId} :
    member ∈ config.unknown wanted ↔ member ∈ wanted ∧ member ∉ config.nodes := by
  simp [unknown]

theorem mem_departed {member : MemberId} :
    member ∈ config.departed wanted ↔ member ∈ config.voters ∧ member ∉ wanted := by
  simp [departed]

/-- The voters the comparison would move. -/
theorem getElem?_moved {member : MemberId} {addr : NodeAddr} :
    (wanted.filter fun member addr =>
        config.currentVoters[member]?.any fun current => current ≠ addr)[member]? = some addr ↔
      wanted[member]? = some addr ∧ member ∈ config.misplaced wanted := by
  rw [OrdMap.getElem?_filter_eq_some, mem_misplaced]
  refine and_congr_right fun hwanted => ?_
  have hmem : member ∈ wanted := OrdMap.mem_iff_exists.mpr ⟨addr, hwanted⟩
  rcases hcurrent : config.currentVoters[member]? with _ | current
  · have hnot : member ∉ config.voters := by
      rw [← mem_currentVoters, OrdMap.mem_iff_exists, hcurrent]
      simp
    simp [hnot]
  · obtain ⟨hnode, hvotes⟩ := getElem?_currentVoters.mp hcurrent
    rw [hnode, hwanted]
    simp [hmem, hvotes]

/-- The voters the comparison would move are the misplaced ones. -/
theorem mem_moved {member : MemberId} :
    member ∈ (wanted.filter fun member addr =>
        config.currentVoters[member]?.any fun current => current ≠ addr) ↔
      member ∈ config.misplaced wanted := by
  rw [OrdMap.mem_iff_exists]
  simp only [getElem?_moved]
  constructor
  · rintro ⟨addr, -, hmisplaced⟩
    exact hmisplaced
  · intro hmisplaced
    obtain ⟨addr, haddr⟩ := OrdMap.mem_iff_exists.mp (mem_misplaced.mp hmisplaced).1
    exact ⟨addr, haddr, hmisplaced⟩

/-- The wanted members that do not vote, as the comparison lists them. -/
theorem mem_joining_list {member : MemberId} :
    member ∈ (wanted.keys.filter fun member => !config.currentVoters.contains member) ↔
      member ∈ config.joining wanted := by
  rw [List.mem_filter, Std.ExtTreeMap.mem_keys, mem_joining, ← @mem_currentVoters config]
  rw [Std.ExtTreeMap.mem_iff_contains (t := config.currentVoters), Bool.not_eq_true,
    Bool.not_eq_true']

section Lists

variable {metrics : Metrics} {joining : List MemberId}
  (hjoining : ∀ member, member ∈ joining ↔ member ∈ config.joining wanted)

include hjoining

/-- The members the comparison would have Raft learn are the unknown ones. -/
theorem mem_strangers {member : MemberId} :
    member ∈ Std.ExtTreeMap.ofList
        ((joining.filter (not ∘ fun member => (config.learnerProgress metrics).contains member)).filterMap
          fun member => wanted[member]?.map fun addr => (member, addr)) compare ↔
      member ∈ config.unknown wanted := by
  rw [OrdMap.mem_ofList_iff, mem_unknown]
  simp only [List.mem_filterMap, List.mem_filter, hjoining, mem_joining, Function.comp_apply,
    Bool.not_eq_true', ← Bool.not_eq_true, ← Std.ExtTreeMap.mem_iff_contains, mem_learnerProgress,
    Option.map_eq_some_iff, Prod.mk.injEq]
  constructor
  · rintro ⟨addr, _, ⟨⟨hwanted, hnot⟩, hunknown⟩, _, -, rfl, rfl⟩
    exact ⟨hwanted, fun hknown => hunknown ⟨hknown, hnot⟩⟩
  · rintro ⟨hwanted, hunknown⟩
    obtain ⟨addr, haddr⟩ := OrdMap.mem_iff_exists.mp hwanted
    exact ⟨addr, member, ⟨⟨hwanted, fun hvotes => hunknown (config.addressed member hvotes)⟩,
      fun hknown => hunknown hknown.1⟩, addr, haddr, rfl, rfl⟩

/-- Of the joining learners, those the comparison sorts by whether they are `ready`
are those whose replication says so. -/
theorem mem_sorted (hknown : config.unknown wanted = ∅) {ready : Bool} {member : MemberId} :
    (member ∈ joining ∧ (config.learnerProgress metrics).contains member = true) ∧
        ((config.learnerProgress metrics)[member]?.getD false) = ready ↔
      member ∈ config.joining wanted ∧ metrics.caughtUp member = ready := by
  rw [hjoining, ← Std.ExtTreeMap.mem_iff_contains, mem_learnerProgress]
  constructor
  · rintro ⟨⟨hjoins, hnode, hnot⟩, hready⟩
    rw [getElem?_learnerProgress.mpr ⟨hnode, hnot, rfl⟩] at hready
    exact ⟨hjoins, hready⟩
  · rintro ⟨hjoins, hready⟩
    obtain ⟨hwanted, hnot⟩ := mem_joining.mp hjoins
    have hnode : member ∈ config.nodes := by
      by_contra hunknown
      have hmem : member ∈ config.unknown wanted := mem_unknown.mpr ⟨hwanted, hunknown⟩
      rw [hknown] at hmem
      simp at hmem
    refine ⟨⟨hjoins, hnode, hnot⟩, ?_⟩
    rw [getElem?_learnerProgress.mpr ⟨hnode, hnot, rfl⟩]
    exact hready

end Lists

/-- The voters the comparison would take out are the departed ones. -/
theorem toFinset_departed :
    (config.currentVoters.keys.filter fun member => !wanted.contains member).toFinset =
      config.departed wanted := by
  ext member
  rw [List.mem_toFinset, List.mem_filter, Std.ExtTreeMap.mem_keys, mem_currentVoters, mem_departed,
    Std.ExtTreeMap.mem_iff_contains (t := wanted), Bool.not_eq_true, Bool.not_eq_true']

/-- What a comparison answers once every wanted member is known: of the learners
among them, `ready` have caught up and `behind` have not. -/
theorem answer_known (found : Surroundings) (hplaced : config.misplaced wanted = ∅)
    (hknown : config.unknown wanted = ∅) {ready behind : List MemberId}
    (hready : ∀ member, member ∈ ready ↔
      member ∈ config.joining wanted ∧ found.metrics.caughtUp member = true)
    (hbehind : ∀ member, member ∈ behind ↔
      member ∈ config.joining wanted ∧ found.metrics.caughtUp member = false) :
    Answer config wanted found
      (if !ready.isEmpty then some (.promote ready.toFinset)
      else if !behind.isEmpty then some (.catchingUp behind)
      else if !(config.currentVoters.keys.filter fun member => !wanted.contains member).isEmpty then
        some (.remove (config.currentVoters.keys.filter fun member =>
          !wanted.contains member).toFinset)
      else none) := by
  rcases ready with _ | ⟨first, rest⟩
  · have hunready : ∀ member ∈ config.joining wanted, found.metrics.caughtUp member = false := by
      intro member hjoins
      rw [← Bool.not_eq_true]
      intro hcaught
      exact List.not_mem_nil ((hready member).mpr ⟨hjoins, hcaught⟩)
    rcases behind with _ | ⟨first, rest⟩
    · have hvoting : config.joining wanted = ∅ := by
        refine Finset.eq_empty_of_forall_notMem fun member hjoins => ?_
        exact List.not_mem_nil ((hbehind member).mpr ⟨hjoins, hunready member hjoins⟩)
      have hdeparted := @toFinset_departed config wanted
      rcases hlist : (config.currentVoters.keys.filter fun member => !wanted.contains member) with
        _ | ⟨first, rest⟩
      · rw [hlist] at hdeparted
        exact .nothing hplaced hvoting hdeparted.symm
      · rw [hlist] at hdeparted
        exact .remove hplaced hvoting hdeparted ⟨first, by simp⟩
    · exact .catchingUp hplaced hknown (fun member hmember => ((hbehind member).mp hmember).1)
        hunready (List.cons_ne_nil _ _)
  · refine .promote hplaced hknown ?_ ⟨first, by simp⟩
    ext member
    rw [List.mem_toFinset, hready, Finset.mem_filter]

/-- **What a comparison answers is what it has found**, when anybody is wanted. -/
theorem change_answer (hwanted : wanted ≠ ∅) (found : Surroundings) :
    Answer config wanted found (config.change wanted found) := by
  have hsome : wanted.isEmpty = false := Std.ExtTreeMap.isEmpty_eq_false_iff.mpr hwanted
  have hjoining : ∀ member, member ∈ (wanted.keys.filter fun member =>
      !config.currentVoters.contains member) ↔ member ∈ config.joining wanted :=
    fun _ => mem_joining_list
  rw [change, nextChange]
  simp only [hsome, Bool.false_eq_true, if_false, List.partition_eq_filter_filter]
  have hmovedMem := fun member => @mem_moved config wanted member
  split
  · rename_i hmoved
    exact .readdress (fun member addr => getElem?_moved) (OrdMap.nonempty_of_mem_iff hmovedMem hmoved)
  · rename_i hmoved
    have hplaced : config.misplaced wanted = ∅ :=
      (OrdMap.isEmpty_iff_of_mem_iff hmovedMem).mp (by simpa using hmoved)
    generalize (wanted.keys.filter fun member => !config.currentVoters.contains member) = joining
      at hjoining ⊢
    have hstrangers :=
      fun member => @mem_strangers config wanted found.metrics joining hjoining member
    split
    · rename_i hlearn
      exact .learn hplaced hstrangers (OrdMap.nonempty_of_mem_iff hstrangers hlearn)
    · rename_i hlearn
      have hknown : config.unknown wanted = ∅ :=
        (OrdMap.isEmpty_iff_of_mem_iff hstrangers).mp (by simpa using hlearn)
      have hready : ∀ member, member ∈ ((joining.filter fun member =>
          (config.learnerProgress found.metrics).contains member).filter fun member =>
            (config.learnerProgress found.metrics)[member]?.getD false) ↔
          member ∈ config.joining wanted ∧ found.metrics.caughtUp member = true := by
        intro member
        rw [List.mem_filter, List.mem_filter]
        exact mem_sorted hjoining hknown
      have hbehind : ∀ member, member ∈ ((joining.filter fun member =>
          (config.learnerProgress found.metrics).contains member).filter (not ∘ fun member =>
            (config.learnerProgress found.metrics)[member]?.getD false)) ↔
          member ∈ config.joining wanted ∧ found.metrics.caughtUp member = false := by
        intro member
        rw [List.mem_filter, List.mem_filter, Function.comp_apply, Bool.not_eq_true']
        exact mem_sorted hjoining hknown
      generalize ((joining.filter fun member =>
          (config.learnerProgress found.metrics).contains member).filter fun member =>
            (config.learnerProgress found.metrics)[member]?.getD false) = ready at hready ⊢
      generalize ((joining.filter fun member =>
          (config.learnerProgress found.metrics).contains member).filter (not ∘ fun member =>
            (config.learnerProgress found.metrics)[member]?.getD false)) = behind at hbehind ⊢
      exact answer_known found hplaced hknown hready hbehind

/-! ## What a change repairs -/

theorem flag_le (members : Finset MemberId) : flag members ≤ 1 := by
  rw [flag]
  split <;> omega

theorem flag_empty : flag ∅ = 0 := rfl

theorem flag_nonempty {members : Finset MemberId} (h : members.Nonempty) : flag members = 1 := by
  rw [flag, if_neg h.ne_empty]

/-- New addresses misplace nobody, and are given to nodes Raft has. -/
theorem submit_readdress {moved : OrdMap MemberId NodeAddr}
    (hmoves : ∀ member addr, moved[member]? = some addr ↔
      wanted[member]? = some addr ∧ member ∈ config.misplaced wanted) :
    (config.submit (.readdress moved)).misplaced wanted = ∅ ∧
      (config.submit (.readdress moved)).unknown wanted = config.unknown wanted := by
  refine ⟨?_, ?_⟩
  · refine Finset.eq_empty_of_forall_notMem fun member hmember => ?_
    obtain ⟨hwanted, hvotes, haddr⟩ := mem_misplaced.mp hmember
    apply haddr
    obtain ⟨addr, hwant⟩ := OrdMap.mem_iff_exists.mp hwanted
    simp only [submit, Std.ExtTreeMap.getElem?_union, hwant]
    by_cases hmisplaced : member ∈ config.misplaced wanted
    · rw [(hmoves member addr).mpr ⟨hwant, hmisplaced⟩]
      rfl
    · -- it was at the wanted address already
      have hsame : config.nodes[member]? = wanted[member]? := by
        by_contra hne
        exact hmisplaced (mem_misplaced.mpr ⟨hwanted, hvotes, hne⟩)
      have hnone : moved[member]? = none := by
        rw [Option.eq_none_iff_forall_ne_some]
        intro other hother
        exact hmisplaced ((hmoves member other).mp hother).2
      rw [hnone, Option.none_or, hsame, hwant]
  · ext member
    simp only [mem_unknown, submit, Std.ExtTreeMap.mem_union_iff]
    refine and_congr_right fun _ => not_congr ⟨?_, Or.inl⟩
    rintro (hnode | hmoved)
    · exact hnode
    · obtain ⟨addr, haddr⟩ := OrdMap.mem_iff_exists.mp hmoved
      exact config.addressed member (mem_misplaced.mp ((hmoves member addr).mp haddr).2).2.1

/-- New nodes leave nobody unknown, and every known node where it is. -/
theorem submit_learn {strangers : OrdMap MemberId NodeAddr}
    (hlearns : ∀ member, member ∈ strangers ↔ member ∈ config.unknown wanted) :
    (config.submit (.learn strangers)).misplaced wanted = config.misplaced wanted ∧
      (config.submit (.learn strangers)).unknown wanted = ∅ := by
  refine ⟨?_, ?_⟩
  · ext member
    simp only [mem_misplaced, submit]
    refine and_congr_right fun _ => and_congr_right fun hvotes => ?_
    obtain ⟨addr, haddr⟩ := OrdMap.mem_iff_exists.mp (config.addressed member hvotes)
    rw [Std.ExtTreeMap.getElem?_union, haddr, Option.some_or]
  · refine Finset.eq_empty_of_forall_notMem fun member hmember => ?_
    obtain ⟨hwanted, hunknown⟩ := mem_unknown.mp hmember
    simp only [submit, Std.ExtTreeMap.mem_union_iff, not_or] at hunknown
    exact hunknown.1 ((hlearns member).mpr (mem_unknown.mpr ⟨hwanted, hunknown.2⟩))

/-- The joining learners that are promoted are nodes Raft has. -/
theorem mem_voters_promote {ready : Finset MemberId} (hknown : config.unknown wanted = ∅)
    (hready : ready ⊆ config.joining wanted) {member : MemberId} :
    member ∈ (config.submit (.promote ready)).voters ↔ member ∈ config.voters ∨ member ∈ ready := by
  simp only [submit, Finset.mem_union, Finset.mem_filter]
  refine or_congr_right ⟨And.left, fun hmember => ⟨hmember, ?_⟩⟩
  by_contra hnode
  have hunknown : member ∈ config.unknown wanted :=
    mem_unknown.mpr ⟨(mem_joining.mp (hready hmember)).1, hnode⟩
  rw [hknown] at hunknown
  simp at hunknown

/-- A promotion takes members off those that are joining, and changes nothing else
that it does not put at a wrong address. -/
theorem submit_promote {ready : Finset MemberId} (hknown : config.unknown wanted = ∅)
    (hready : ready ⊆ config.joining wanted) (hsome : ready.Nonempty) :
    ((config.submit (.promote ready)).joining wanted).card < (config.joining wanted).card ∧
      (config.submit (.promote ready)).departed wanted = config.departed wanted := by
  refine ⟨?_, ?_⟩
  · obtain ⟨first, hfirst⟩ := hsome
    refine Finset.card_lt_card (Finset.ssubset_iff_of_subset ?_ |>.mpr ⟨first, hready hfirst, ?_⟩)
    · intro member hmember
      obtain ⟨hwanted, hnot⟩ := mem_joining.mp hmember
      rw [mem_voters_promote hknown hready, not_or] at hnot
      exact mem_joining.mpr ⟨hwanted, hnot.1⟩
    · intro hmember
      obtain ⟨-, hnot⟩ := mem_joining.mp hmember
      exact hnot ((mem_voters_promote hknown hready).mpr (Or.inr hfirst))
  · ext member
    rw [mem_departed, mem_departed, mem_voters_promote hknown hready]
    refine ⟨?_, fun h => ⟨Or.inl h.1, h.2⟩⟩
    rintro ⟨hvotes | hjoins, hnot⟩
    · exact ⟨hvotes, hnot⟩
    · exact absurd (mem_joining.mp (hready hjoins)).1 hnot

/-- Taking out the departed touches no wanted voter. -/
theorem submit_remove :
    (config.submit (.remove (config.departed wanted))).joining wanted = config.joining wanted ∧
      (config.submit (.remove (config.departed wanted))).misplaced wanted =
        config.misplaced wanted ∧
      (config.submit (.remove (config.departed wanted))).departed wanted = ∅ := by
  refine ⟨?_, ?_, ?_⟩
  · ext member
    simp only [mem_joining, submit, Finset.mem_sdiff, mem_departed]
    tauto
  · ext member
    simp only [mem_misplaced, submit, Finset.mem_sdiff, mem_departed]
    tauto
  · refine Finset.eq_empty_of_forall_notMem fun member hmember => ?_
    simp only [mem_departed, submit, Finset.mem_sdiff] at hmember
    tauto

/-- **Every change but a wait leaves less to repair.** -/
theorem differences_submit {found : Surroundings} {change : Change}
    (h : Answer config wanted found (some change)) (hmoves : ∀ behind, change ≠ .catchingUp behind) :
    (config.submit change).differences wanted < config.differences wanted := by
  cases h with
  | readdress moves nonempty =>
    obtain ⟨hplaced, hunknown⟩ := submit_readdress moves
    rw [differences, differences, hplaced, hunknown, flag_empty, flag_nonempty nonempty]
    exact Nat.add_lt_add_right (Nat.add_lt_add_right (Nat.lt_succ_self _) _) _
  | learn placed learns nonempty =>
    obtain ⟨hplaced, hunknown⟩ := submit_learn learns
    rw [differences, differences, hplaced, hunknown, flag_empty, flag_nonempty nonempty]
    exact Nat.add_lt_add_right (Nat.lt_succ_self _) _
  | promote placed known promotes nonempty =>
    subst promotes
    obtain ⟨hjoining, hdeparted⟩ := submit_promote known (Finset.filter_subset _ _) nonempty
    have hunknown : (config.submit (.promote ((config.joining wanted).filter fun member =>
        found.metrics.caughtUp member))).unknown wanted = config.unknown wanted := rfl
    rw [differences, differences, hdeparted, hunknown, placed, flag_empty]
    have hflag := flag_le ((config.submit (.promote ((config.joining wanted).filter fun member =>
      found.metrics.caughtUp member))).misplaced wanted)
    omega
  | catchingUp => exact absurd rfl (hmoves _)
  | remove placed voting removes nonempty =>
    subst removes
    obtain ⟨hjoining, hplaced, hdeparted⟩ := @submit_remove config wanted
    have hunknown : (config.submit (.remove (config.departed wanted))).unknown wanted =
        config.unknown wanted := rfl
    rw [differences, differences, hjoining, hplaced, hdeparted, hunknown, flag_empty,
      flag_nonempty nonempty]
    exact Nat.lt_succ_self _

/-! ## Whole runs -/

/-- Nothing to change means that the voters are the wanted ones, where they are
wanted. -/
theorem currentVoters_of_nothing {found : Surroundings} (h : Answer config wanted found none) :
    config.currentVoters = wanted := by
  rcases h with _ | _ | _ | _ | _ | ⟨placed, voting, all⟩
  apply Std.ExtTreeMap.ext_getElem?
  intro member
  by_cases hwanted : member ∈ wanted
  · have hvotes : member ∈ config.voters := by
      by_contra hnot
      have hjoins : member ∈ config.joining wanted := mem_joining.mpr ⟨hwanted, hnot⟩
      rw [voting] at hjoins
      simp at hjoins
    have hsame : config.nodes[member]? = wanted[member]? := by
      by_contra hne
      have hmisplaced : member ∈ config.misplaced wanted :=
        mem_misplaced.mpr ⟨hwanted, hvotes, hne⟩
      rw [placed] at hmisplaced
      simp at hmisplaced
    obtain ⟨addr, haddr⟩ := OrdMap.mem_iff_exists.mp hwanted
    rw [haddr]
    exact getElem?_currentVoters.mpr ⟨hsame.trans haddr, hvotes⟩
  · have hnot : member ∉ config.voters := by
      intro hvotes
      have hdeparted : member ∈ config.departed wanted := mem_departed.mpr ⟨hvotes, hwanted⟩
      rw [all] at hdeparted
      simp at hdeparted
    rw [Std.ExtTreeMap.getElem?_eq_none hwanted,
      Std.ExtTreeMap.getElem?_eq_none (mem_currentVoters.not.mpr hnot)]

/-- **Who is taken out, and when**: a voter that is not wanted, once everybody who
is wanted votes. -/
theorem removed_by_pass (hwanted : wanted ≠ ∅) (found : Surroundings) {member : MemberId}
    (hvotes : member ∈ config.voters) (hgone : member ∉ (config.pass wanted found).voters) :
    member ∉ wanted ∧ ∀ other ∈ wanted, other ∈ config.voters := by
  have hanswer := @change_answer config wanted hwanted found
  rw [pass] at hgone
  generalize config.change wanted found = change at hanswer hgone
  cases hanswer with
  | readdress moves nonempty => exact absurd hvotes hgone
  | learn placed learns nonempty => exact absurd hvotes hgone
  | promote placed known promotes nonempty =>
    exact absurd (Finset.mem_union_left _ hvotes) hgone
  | catchingUp placed known waits unready nonempty => exact absurd hvotes hgone
  | nothing placed voting all => exact absurd hvotes hgone
  | remove placed voting removes nonempty =>
    subst removes
    refine ⟨?_, ?_⟩
    · intro hwants
      exact hgone (Finset.mem_sdiff.mpr ⟨hvotes, fun hdeparted => (mem_departed.mp hdeparted).2 hwants⟩)
    · intro other hother
      by_contra hnot
      have hjoins : other ∈ config.joining wanted := mem_joining.mpr ⟨hother, hnot⟩
      rw [voting] at hjoins
      simp at hjoins

/-- A comparison leaves somebody to vote. -/
theorem voters_pass_nonempty (hwanted : wanted ≠ ∅) (found : Surroundings)
    (h : config.voters.Nonempty) : (config.pass wanted found).voters.Nonempty := by
  obtain ⟨voter, hvotes⟩ := h
  by_cases hstays : voter ∈ (config.pass wanted found).voters
  · exact ⟨voter, hstays⟩
  · obtain ⟨-, hall⟩ := removed_by_pass hwanted found hvotes hstays
    obtain ⟨other, hother⟩ : ∃ other, other ∈ wanted := by
      by_contra hnone
      exact hwanted (Std.ExtTreeMap.eq_empty_iff_forall_not_mem.mpr (not_exists.mp hnone))
    refine ⟨other, ?_⟩
    by_contra hgone
    exact (removed_by_pass hwanted found (hall other hother) hgone).1 hother

/-- What a comparison does: it finds nothing to change, leaves less to repair, or
waits. -/
theorem pass_cases (hwanted : wanted ≠ ∅) (found : Surroundings) :
    (config.change wanted found = none ∨
        (config.pass wanted found).differences wanted < config.differences wanted) ∨
      config.pass wanted found = config ∧
        ∃ behind, config.change wanted found = some (.catchingUp behind) := by
  have hanswer := @change_answer config wanted hwanted found
  rw [pass]
  rcases hchange : config.change wanted found with _ | change <;> rw [hchange] at hanswer
  · exact Or.inl (Or.inl rfl)
  · by_cases hwaits : ∃ behind, change = .catchingUp behind
    · obtain ⟨behind, rfl⟩ := hwaits
      exact Or.inr ⟨rfl, behind, rfl⟩
    · rw [not_exists] at hwaits
      exact Or.inl (Or.inr (differences_submit hanswer hwaits))

/-- A learner that is waited for and has caught up ends the wait. -/
theorem pass_of_caughtUp (hwanted : wanted ≠ ∅) {found later : Surroundings} {behind : List MemberId}
    {member : MemberId} (hwaits : config.change wanted found = some (.catchingUp behind))
    (hmember : member ∈ behind) (hcaught : later.metrics.caughtUp member = true) :
    config.change wanted later = none ∨
      (config.pass wanted later).differences wanted < config.differences wanted := by
  rcases pass_cases hwanted later with hmoves | ⟨-, others, hothers⟩
  · exact hmoves
  · have hbefore := @change_answer config wanted hwanted found
    have hafter := @change_answer config wanted hwanted later
    rw [hwaits] at hbefore
    rw [hothers] at hafter
    rcases hbefore with _ | _ | _ | ⟨-, -, waits, -, -⟩ | _ | _
    rcases hafter with _ | _ | _ | ⟨-, -, -, unready, -⟩ | _ | _
    rw [unready member (waits member hmember)] at hcaught
    cases hcaught

end Configuration

/-- **Reconciling the voters converges and is safe**, from any configuration and
whatever the metrics say along the way.

* For any wanted core group, if a learner that is waited for has caught up at some
  later comparison, then after finitely many comparisons there is nothing left to
  change, and the voters are the wanted ones at the wanted addresses.
* And even if the wanted core group is another one at every comparison, voters
  never run out, and no voter is removed while somebody who is wanted does not
  vote. -/
theorem reconcile_converges (config : Configuration) (found : ℕ → Surroundings) :
    (∀ wanted : OrdMap MemberId NodeAddr, wanted ≠ ∅ →
      (∀ t behind member,
        (config.passes (fun _ => wanted) found t).change wanted (found t) =
          some (.catchingUp behind) →
        member ∈ behind → ∃ later ≥ t, (found later).metrics.caughtUp member = true) →
      ∃ n, (config.passes (fun _ => wanted) found n).change wanted (found n) = none ∧
        (config.passes (fun _ => wanted) found n).currentVoters = wanted) ∧
    ∀ wanted : ℕ → OrdMap MemberId NodeAddr, (∀ t, wanted t ≠ ∅) →
      (∀ s t, s ≤ t → (config.passes wanted found s).voters.Nonempty →
        (config.passes wanted found t).voters.Nonempty) ∧
      ∀ t, ∀ member ∈ (config.passes wanted found t).voters,
        member ∉ (config.passes wanted found (t + 1)).voters →
        ∀ other ∈ wanted t, other ∈ (config.passes wanted found t).voters := by
  refine ⟨?_, ?_⟩
  · intro wanted hwanted hfair
    have hsettles := settles (f := config.passes (fun _ => wanted) found)
      (μ := fun config => config.differences wanted)
      (D := fun t => (config.passes (fun _ => wanted) found t).change wanted (found t) = none)
      (fun t => (Configuration.pass_cases hwanted (found t)).imp_right And.left) ?_ 0
    · obtain ⟨n, -, hdone⟩ := hsettles
      have hanswer := @Configuration.change_answer (config.passes (fun _ => wanted) found n) wanted
        hwanted (found n)
      rw [hdone] at hanswer
      exact ⟨n, hdone, Configuration.currentVoters_of_nothing hanswer⟩
    · intro t hnot
      rcases Configuration.pass_cases hwanted (found t) with hmoves | ⟨-, behind, hwaits⟩
      · exact ⟨t, le_rfl, fun _ => hmoves⟩
      · have hanswer := @Configuration.change_answer (config.passes (fun _ => wanted) found t) wanted
          hwanted (found t)
        rw [hwaits] at hanswer
        rcases hanswer with _ | _ | _ | ⟨-, -, -, -, nonempty⟩ | _ | _
        obtain ⟨member, hmember⟩ := List.exists_mem_of_ne_nil _ nonempty
        obtain ⟨later, hlater, hcaught⟩ := hfair t behind member hwaits hmember
        refine ⟨later, hlater, fun hstays => ?_⟩
        have hsame := hstays later hlater le_rfl
        rw [← hsame] at hwaits
        exact Configuration.pass_of_caughtUp hwanted hwaits hmember hcaught
  · intro wanted hwanted
    refine ⟨?_, ?_⟩
    · intro s t hle hvoters
      induction t, hle using Nat.le_induction with
      | base => exact hvoters
      | succ t _ ih => exact Configuration.voters_pass_nonempty (hwanted t) (found t) ih
    · intro t member hvotes hgone
      exact (Configuration.removed_by_pass (hwanted t) (found t) hvotes hgone).2

/-- Alice votes, and bob is a learner kept from before, at an address he has left. -/
def keptLearner : Configuration where
  voters := {alice}
  nodes := .ofList [(alice, default), (bob, ⟨some "old", ∅⟩)] compare
  addressed := by decide +kernel

/-- The log wants bob, where he is now, and carol. -/
def disjointCore : OrdMap MemberId NodeAddr :=
  .ofList [(bob, ⟨some "new", ∅⟩), (carol, default)] compare

/-- Nothing is committed, so whoever is learning has caught up. -/
def atOnce : ℕ → Surroundings := fun _ => ⟨⟨none, none⟩, ∅⟩

/-- The whole core group is replaced, and alice votes until it is. -/
theorem reconcile_converges_disjoint :
    (∃ n, (keptLearner.passes (fun _ => disjointCore) atOnce n).currentVoters = disjointCore) ∧
      (keptLearner.passes (fun _ => disjointCore) atOnce 2).voters = {alice, bob, carol} ∧
      (keptLearner.passes (fun _ => disjointCore) atOnce 4).voters = {bob, carol} := by
  have hwanted : disjointCore ≠ ∅ := by decide +kernel
  obtain ⟨n, -, hvoters⟩ := (reconcile_converges keptLearner atOnce).1 disjointCore hwanted
    (fun t _ _ _ _ => ⟨t, le_rfl, rfl⟩)
  exact ⟨⟨n, hvoters⟩, by decide +kernel, by decide +kernel⟩

end CoreGroup

end Distlib
