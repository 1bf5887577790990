import Distlib.Consensus.CoreGroup

/-!
# Where a promoted learner is

A voter whose address the log has moved is given the new one, and a member Raft does not
know is learned at the address the log has. A learner is neither: it keeps the address it
was learned at, or had when it was last a voter. If the log has moved it since, and wants
it again, it is promoted at the old address, or waited for there; and at an address it has
left it does not catch up.

A learner recorded at another address than the wanted one is astray. Comparing with the
same core group again leads nobody astray (`astray_pass`), so a run in which nobody is when
the core group changes is right throughout. And nobody finds the way back: of a learner who
is astray the comparison comes to the point where it makes a voter of them, or waits for
them, since every comparison before that leaves less to repair (`astray_stays`). So for a
core group that stays what it is, it is right exactly when nobody is astray at its start
(`promoted_where_wanted_iff`).
-/

namespace Distlib

namespace CoreGroup

namespace Configuration

variable {config : Configuration} {wanted : OrdMap MemberId NodeAddr} {found : Surroundings}
  {member : MemberId}

/-- The wanted learners that are recorded at another address than the wanted one. -/
def astray (config : Configuration) (wanted : OrdMap MemberId NodeAddr) : Finset MemberId :=
  (config.joining wanted ∩ OrdMap.keySet config.nodes).filter fun member =>
    config.nodes[member]? ≠ wanted[member]?

/-- Whoever a comparison makes a voter, or waits for, is where the log wants them. -/
structure PlacedAsWanted (config : Configuration) (wanted : OrdMap MemberId NodeAddr)
    (found : Surroundings) : Prop where
  promoted : ∀ member ∈ (config.pass wanted found).voters, member ∉ config.voters →
    (config.pass wanted found).nodes[member]? = wanted[member]?
  awaited : ∀ behind, config.change wanted found = some (.catchingUp behind) →
    ∀ member ∈ behind, config.nodes[member]? = wanted[member]?

theorem mem_astray :
    member ∈ config.astray wanted ↔
      (member ∈ wanted ∧ member ∉ config.voters) ∧ member ∈ config.nodes ∧
        config.nodes[member]? ≠ wanted[member]? := by
  rw [astray, Finset.mem_filter, Finset.mem_inter, mem_joining, OrdMap.mem_keySet, and_assoc]

/-- A comparison without a core group to compare with does nothing to the voters. -/
theorem change_of_nobody_wanted (hnobody : wanted = ∅) : config.change wanted found = none := by
  rw [change, nextChange, hnobody]
  rfl

/-! ## One comparison -/

/-- Whom a comparison waits for: everybody who is joining. -/
theorem mem_behind {behind : List MemberId}
    (hwaits : config.change wanted found = some (.catchingUp behind))
    (hjoins : member ∈ config.joining wanted) : member ∈ behind := by
  have hwanted : wanted ≠ ∅ := by
    intro hnobody
    rw [change_of_nobody_wanted hnobody] at hwaits
    cases hwaits
  have hanswer := @change_answer config wanted hwanted found
  rw [hwaits] at hanswer
  rcases hanswer with _ | _ | _ | ⟨-, known, -, unready, -⟩ | _ | _
  have hsorted := (@mem_sorted config wanted found.metrics _
    (fun _ => mem_joining_list) known false member).mpr ⟨hjoins, unready member hjoins⟩
  rw [change, nextChange] at hwaits
  simp only [Std.ExtTreeMap.isEmpty_eq_false_iff.mpr hwanted, Bool.false_eq_true, if_false,
    List.partition_eq_filter_filter] at hwaits
  split at hwaits
  · cases hwaits
  · split at hwaits
    · cases hwaits
    · split at hwaits
      · cases hwaits
      · split at hwaits
        · obtain rfl := Change.catchingUp.inj (Option.some.inj hwaits)
          refine List.mem_filter.mpr ⟨List.mem_filter.mpr hsorted.1, ?_⟩
          rw [Function.comp_apply, hsorted.2]
          rfl
        · split at hwaits
          · cases hwaits
          · cases hwaits

/-- Where a member is learned: where the log wants them. -/
theorem learned_where_wanted {strangers : OrdMap MemberId NodeAddr} {addr : NodeAddr}
    (hlearns : config.change wanted found = some (.learn strangers))
    (haddr : strangers[member]? = some addr) : wanted[member]? = some addr := by
  rw [change, nextChange] at hlearns
  simp only [List.partition_eq_filter_filter] at hlearns
  split at hlearns
  · cases hlearns
  · split at hlearns
    · cases hlearns
    · split at hlearns
      · obtain rfl := Change.learn.inj (Option.some.inj hlearns)
        obtain ⟨joins, -, hentry⟩ := List.mem_filterMap.mp (OrdMap.mem_of_getElem?_ofList haddr)
        obtain ⟨wants, hwants, hpair⟩ := Option.map_eq_some_iff.mp hentry
        obtain ⟨rfl, rfl⟩ := Prod.mk.inj hpair
        exact hwants
      · split at hlearns
        · cases hlearns
        · split at hlearns
          · cases hlearns
          · split at hlearns
            · cases hlearns
            · cases hlearns

/-- A comparison that makes nobody a voter and waits for nobody. -/
theorem placedAsWanted_of_idle (hvoters : (config.pass wanted found).voters ⊆ config.voters)
    (hmoves : ∀ behind, config.change wanted found ≠ some (.catchingUp behind)) :
    config.PlacedAsWanted wanted found where
  promoted := fun _ hvotes hnot => absurd (hvoters hvotes) hnot
  awaited := fun behind hwaits => absurd hwaits (hmoves behind)

/-- With everybody known and nobody astray, whoever is joining is where they are wanted. -/
theorem placed_of_joining (hnone : config.astray wanted = ∅) (hknown : config.unknown wanted = ∅)
    (hjoins : member ∈ config.joining wanted) : config.nodes[member]? = wanted[member]? := by
  by_contra hastray
  have hnode : member ∈ config.nodes := by
    by_contra hunknown
    have hmem := mem_unknown.mpr ⟨(mem_joining.mp hjoins).1, hunknown⟩
    rw [hknown] at hmem
    exact absurd hmem (Finset.notMem_empty member)
  have hmem := mem_astray.mpr ⟨mem_joining.mp hjoins, hnode, hastray⟩
  rw [hnone] at hmem
  exact absurd hmem (Finset.notMem_empty member)

/-- **One comparison with nobody astray**: it makes voters of, or waits for, learners that
are where they are wanted. -/
theorem placedAsWanted_of_astray (hnone : config.astray wanted = ∅) (found : Surroundings) :
    config.PlacedAsWanted wanted found := by
  by_cases hnobody : wanted = ∅
  · have hchange := @change_of_nobody_wanted config wanted found hnobody
    refine placedAsWanted_of_idle ?_ (by rw [hchange]; intro _ heq; cases heq)
    rw [pass, hchange]
    exact Finset.Subset.refl _
  have hanswer := @change_answer config wanted hnobody found
  rcases hchange : config.change wanted found with _ | change <;> rw [hchange] at hanswer
  · refine placedAsWanted_of_idle ?_ (by rw [hchange]; intro _ heq; cases heq)
    rw [pass, hchange]
    exact Finset.Subset.refl _
  have hpass : config.pass wanted found = config.submit change := by rw [pass, hchange]
  cases hanswer with
  | readdress moves nonempty =>
    exact placedAsWanted_of_idle (by rw [hpass]; exact Finset.Subset.refl _)
      (by rw [hchange]; intro _ heq; cases heq)
  | learn placed learns nonempty =>
    exact placedAsWanted_of_idle (by rw [hpass]; exact Finset.Subset.refl _)
      (by rw [hchange]; intro _ heq; cases heq)
  | remove placed voting removes nonempty =>
    exact placedAsWanted_of_idle (by rw [hpass]; exact Finset.sdiff_subset)
      (by rw [hchange]; intro _ heq; cases heq)
  | @promote ready placed known promotes nonempty =>
    have hready : ready ⊆ config.joining wanted := by
      rw [promotes]
      exact Finset.filter_subset _ _
    refine ⟨?_, by rw [hchange]; intro _ heq; cases heq⟩
    intro member hvotes hnot
    rw [hpass] at hvotes ⊢
    -- a promotion leaves the addresses as they are
    have hmember := ((mem_voters_promote known hready).mp hvotes).resolve_left hnot
    have hthere := placed_of_joining hnone known (hready hmember)
    exact hthere
  | catchingUp placed known waits unready nonempty =>
    refine ⟨?_, ?_⟩
    · intro member hvotes hnot
      rw [hpass] at hvotes
      exact absurd hvotes hnot
    · intro behind hwaits member hmember
      rw [hchange] at hwaits
      obtain rfl := Change.catchingUp.inj (Option.some.inj hwaits)
      exact placed_of_joining hnone known (waits member hmember)

/-! ## Whole runs -/

/-- Nobody is led astray by comparing with the same core group again. -/
theorem astray_pass (config : Configuration) (wanted : OrdMap MemberId NodeAddr)
    (found : Surroundings) : (config.pass wanted found).astray wanted ⊆ config.astray wanted := by
  intro member hmember
  obtain ⟨⟨hwanted, hnot⟩, hnode, hastray⟩ := mem_astray.mp hmember
  have hsome : wanted ≠ ∅ := fun hnobody =>
    Std.ExtTreeMap.not_mem_empty (hnobody ▸ hwanted)
  have hanswer := @change_answer config wanted hsome found
  rw [mem_astray]
  rcases hchange : config.change wanted found with _ | change <;> rw [hchange] at hanswer <;>
    simp only [pass, hchange] at hnot hnode hastray
  · -- what is forgotten is not wanted
    obtain ⟨addr, haddr⟩ := OrdMap.mem_iff_exists.mp hnode
    rw [haddr] at hastray
    obtain ⟨hold, -⟩ := OrdMap.getElem?_filter_eq_some.mp haddr
    exact ⟨⟨hwanted, hnot⟩, OrdMap.mem_iff_exists.mpr ⟨addr, hold⟩, by rw [hold]; exact hastray⟩
  cases hanswer with
  | @readdress moved moves nonempty =>
    have hunmoved : moved[member]? = none := by
      rw [Option.eq_none_iff_forall_ne_some]
      intro addr haddr
      exact hnot (mem_misplaced.mp ((moves member addr).mp haddr).2).2.1
    simp only [submit, Std.ExtTreeMap.getElem?_union, hunmoved, Option.none_or] at hastray
    refine ⟨⟨hwanted, hnot⟩, ?_, hastray⟩
    refine (Std.ExtTreeMap.mem_union_iff.mp hnode).resolve_right ?_
    intro hmoved
    exact absurd hmoved (OrdMap.notMem_of_getElem?_eq_none hunmoved)
  | @learn strangers placed learns nonempty =>
    rcases hold : config.nodes[member]? with _ | addr
    · -- it was learned just now, at the wanted address
      simp only [submit, Std.ExtTreeMap.getElem?_union, hold, Option.none_or] at hastray
      obtain ⟨addr, haddr⟩ : ∃ addr, strangers[member]? = some addr := by
        refine OrdMap.mem_iff_exists.mp ((Std.ExtTreeMap.mem_union_iff.mp hnode).resolve_right ?_)
        exact OrdMap.notMem_of_getElem?_eq_none hold
      rw [haddr, learned_where_wanted hchange haddr] at hastray
      exact absurd rfl hastray
    · simp only [submit, Std.ExtTreeMap.getElem?_union, hold, Option.some_or] at hastray
      exact ⟨⟨hwanted, hnot⟩, OrdMap.mem_iff_exists.mpr ⟨addr, hold⟩, hastray⟩
  | promote placed known promotes nonempty =>
    exact ⟨⟨hwanted, fun hvotes => hnot (Finset.mem_union_left _ hvotes)⟩, hnode, hastray⟩
  | catchingUp placed known waits unready nonempty => exact ⟨⟨hwanted, hnot⟩, hnode, hastray⟩
  | remove placed voting removes nonempty =>
    refine ⟨⟨hwanted, fun hvotes => hnot (Finset.mem_sdiff.mpr ⟨hvotes, ?_⟩)⟩, hnode, hastray⟩
    rw [removes]
    exact fun hdeparts => (mem_departed.mp hdeparts).2 hwanted

/-- **Who is astray stays astray**, as long as a comparison neither promotes them nor waits
for them; and such a comparison leaves less to repair. -/
theorem astray_stays (hastray : member ∈ config.astray wanted)
    (hplaced : config.PlacedAsWanted wanted found) :
    member ∈ (config.pass wanted found).astray wanted ∧
      (config.pass wanted found).differences wanted < config.differences wanted := by
  obtain ⟨⟨hwanted, hnot⟩, hnode, hwhere⟩ := mem_astray.mp hastray
  have hjoins : member ∈ config.joining wanted := mem_joining.mpr ⟨hwanted, hnot⟩
  have hsome : wanted ≠ ∅ := fun hnobody =>
    Std.ExtTreeMap.not_mem_empty (hnobody ▸ hwanted)
  obtain ⟨addr, haddr⟩ := OrdMap.mem_iff_exists.mp hnode
  -- it is enough that they neither vote nor move
  have hstays : ∀ after : Configuration, member ∉ after.voters →
      after.nodes[member]? = some addr → member ∈ after.astray wanted := fun after hout hsame =>
    mem_astray.mpr ⟨⟨hwanted, hout⟩, OrdMap.mem_iff_exists.mpr ⟨addr, hsame⟩,
      by rw [hsame, ← haddr]; exact hwhere⟩
  have hanswer := @change_answer config wanted hsome found
  rcases hchange : config.change wanted found with _ | change <;> rw [hchange] at hanswer
  · cases hanswer with
    | nothing placed voting all =>
      rw [voting] at hjoins
      exact absurd hjoins (Finset.notMem_empty member)
  have hpass : config.pass wanted found = config.submit change := by rw [pass, hchange]
  have hless : (∀ behind, change ≠ .catchingUp behind) →
      (config.pass wanted found).differences wanted < config.differences wanted := by
    rw [hpass]
    exact differences_submit hanswer
  cases hanswer with
  | @readdress moved moves nonempty =>
    refine ⟨?_, hless (by intro _ heq; cases heq)⟩
    rw [hpass]
    refine hstays _ hnot ?_
    have hunmoved : moved[member]? = none := by
      rw [Option.eq_none_iff_forall_ne_some]
      intro addr haddr
      exact hnot (mem_misplaced.mp ((moves member addr).mp haddr).2).2.1
    simp only [submit, Std.ExtTreeMap.getElem?_union, hunmoved, Option.none_or, haddr]
  | learn placed learns nonempty =>
    refine ⟨?_, hless (by intro _ heq; cases heq)⟩
    rw [hpass]
    refine hstays _ hnot ?_
    simp only [submit, Std.ExtTreeMap.getElem?_union, haddr, Option.some_or]
  | @promote ready placed known promotes nonempty =>
    refine ⟨?_, hless (by intro _ heq; cases heq)⟩
    rw [hpass]
    refine hstays _ ?_ haddr
    -- a voter now, they would be one where they are not wanted
    intro hvotes
    refine hwhere ?_
    have hthere := hplaced.promoted member (by rw [hpass]; exact hvotes) hnot
    rw [hpass] at hthere
    exact hthere
  | catchingUp placed known waits unready nonempty =>
    exact absurd (hplaced.awaited _ hchange member (mem_behind hchange hjoins)) hwhere
  | remove placed voting removes nonempty =>
    rw [voting] at hjoins
    exact absurd hjoins (Finset.notMem_empty member)

/-- A run with one core group that places everybody as wanted has nobody astray. -/
theorem astray_of_placed {core : OrdMap MemberId NodeAddr} {found : ℕ → Surroundings}
    (hplaced : ∀ t, (config.passes (fun _ => core) found t).PlacedAsWanted core (found t)) :
    config.astray core = ∅ := by
  by_contra hsome
  obtain ⟨member, hastray⟩ := Finset.nonempty_iff_ne_empty.mpr hsome
  -- every comparison would leave less to repair, without end
  have hbound : ∀ t, member ∈ (config.passes (fun _ => core) found t).astray core ∧
      (config.passes (fun _ => core) found t).differences core + t ≤ config.differences core := by
    intro t
    induction t with
    | zero => exact ⟨hastray, le_rfl⟩
    | succ t ih =>
      obtain ⟨hstill, hbelow⟩ := ih
      obtain ⟨hnext, hless⟩ := astray_stays hstill (hplaced t)
      refine ⟨hnext, ?_⟩
      rw [passes]
      omega
  have hend := (hbound (config.differences core + 1)).2
  omega

end Configuration

/-- **Whoever is made a voter, or waited for, is where the log wants them, as long as no
learner is astray when the core group changes**: in every run of comparisons, from any
configuration, whatever the log wants and the metrics say at each. And for a core group that
stays what it is, that is exact: it is so at every comparison if and only if no learner it
wants is recorded at another address when it becomes the wanted one. -/
theorem promoted_where_wanted_iff (config : Configuration) (found : ℕ → Surroundings) :
    (∀ core : OrdMap MemberId NodeAddr,
      (∀ t, (config.passes (fun _ => core) found t).PlacedAsWanted core (found t)) ↔
        config.astray core = ∅) ∧
    ∀ wanted : ℕ → OrdMap MemberId NodeAddr, config.astray (wanted 0) = ∅ →
      (∀ t, wanted (t + 1) = wanted t ∨
        (config.passes wanted found (t + 1)).astray (wanted (t + 1)) = ∅) →
      ∀ t, (config.passes wanted found t).PlacedAsWanted (wanted t) (found t) := by
  have hruns : ∀ wanted : ℕ → OrdMap MemberId NodeAddr, config.astray (wanted 0) = ∅ →
      (∀ t, wanted (t + 1) = wanted t ∨
        (config.passes wanted found (t + 1)).astray (wanted (t + 1)) = ∅) →
      ∀ t, (config.passes wanted found t).astray (wanted t) = ∅ := by
    intro wanted hstart hchanges t
    induction t with
    | zero => exact hstart
    | succ t ih =>
      rcases hchanges t with hsame | hnone
      · rw [hsame, ← Finset.subset_empty, ← ih]
        exact Configuration.astray_pass _ (wanted t) (found t)
      · exact hnone
  refine ⟨fun core => ⟨Configuration.astray_of_placed, fun hnone t => ?_⟩, ?_⟩
  · exact Configuration.placedAsWanted_of_astray
      (hruns (fun _ => core) hnone (fun _ => Or.inl rfl) t) (found t)
  · intro wanted hstart hchanges t
    exact Configuration.placedAsWanted_of_astray (hruns wanted hstart hchanges t) (found t)

deriving instance DecidableEq for Change

/-- Something is committed, and nothing is heard of how far anybody is. -/
def unheard : ℕ → Surroundings := fun _ => ⟨⟨none, some 1⟩, ∅⟩

/-- **Bob is promoted where he no longer is**: he was demoted, moved and is wanted again. If
he has to catch up first he is waited for there. -/
theorem bob_promoted_at_old_address :
    bob ∉ (keptLearner.passes (fun _ => disjointCore) atOnce 1).voters ∧
      bob ∈ (keptLearner.passes (fun _ => disjointCore) atOnce 2).voters ∧
      (keptLearner.passes (fun _ => disjointCore) atOnce 2).nodes[bob]? = some ⟨some "old", ∅⟩ ∧
      disjointCore[bob]? = some ⟨some "new", ∅⟩ ∧
      (keptLearner.passes (fun _ => disjointCore) unheard 1).change disjointCore (unheard 1) =
        some (.catchingUp [bob, carol]) ∧
      ¬∀ t, (keptLearner.passes (fun _ => disjointCore) atOnce t).PlacedAsWanted disjointCore
        (atOnce t) := by
  have hbefore : bob ∉ (keptLearner.passes (fun _ => disjointCore) atOnce 1).voters := by
    decide +kernel
  have hafter : bob ∈ (keptLearner.passes (fun _ => disjointCore) atOnce 2).voters := by
    decide +kernel
  have hold : (keptLearner.passes (fun _ => disjointCore) atOnce 2).nodes[bob]? =
      some ⟨some "old", ∅⟩ := by decide +kernel
  refine ⟨hbefore, hafter, hold, by decide +kernel, by decide +kernel, ?_⟩
  intro hplaced
  have hsame := (hplaced 1).promoted bob hafter hbefore
  exact absurd (hold.symm.trans hsame) (by decide +kernel)

/-- The log wants carol, and then bob as well, where he was. -/
def bobWantedLater (t : ℕ) : OrdMap MemberId NodeAddr :=
  if t < 2 then .ofList [(alice, default), (carol, default)] compare
  else .ofList [(alice, default), (bob, ⟨some "old", ∅⟩), (carol, default)] compare

/-- Then he is promoted where he is. -/
theorem bob_promoted_where_wanted :
    (∀ t, (keptLearner.passes bobWantedLater atOnce t).PlacedAsWanted (bobWantedLater t)
      (atOnce t)) ∧ bob ∈ (keptLearner.passes bobWantedLater atOnce 3).voters := by
  refine ⟨(promoted_where_wanted_iff keptLearner atOnce).2 bobWantedLater (by decide +kernel) ?_,
    by decide +kernel⟩
  intro t
  rcases Nat.lt_trichotomy t 1 with hbefore | rfl | hafter
  · exact Or.inl (by rw [bobWantedLater, bobWantedLater, if_pos (by omega), if_pos (by omega)])
  · exact Or.inr (by decide +kernel)
  · exact Or.inl (by rw [bobWantedLater, bobWantedLater, if_neg (by omega), if_neg (by omega)])

end CoreGroup

end Distlib
