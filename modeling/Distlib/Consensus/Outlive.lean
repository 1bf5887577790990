import Distlib.Consensus.Outcome

/-!
# Approvals and the membership they were given for

An expulsion that is enacted drops what waits about the member: by its subject, where the
proposal is an admission or an expulsion; by the core it moves, where the proposal is a
core map that names a member who was core. A core map that names an ordinary member is
about no member by the first rule, and by the second nothing moved. It stays, with the
approvals it has, while the member is outside; and once they are admitted again it makes
them core.

`nothing_outlives_iff` says that this is the only way round, over every log: no proposal
about a member outlives their expulsion exactly when, at each expulsion, the member was
core or no core map that could still be approved named them.
-/

namespace Distlib

open IndexedLog

namespace MembershipState

variable {s t u : MembershipState} {sig : Signing} {pre post log : Log SignedEvent} {p i j : ℕ}
  {signed : SignedEvent} {entry : Proposal} {m : MemberId}

/-! ## The claim and its condition -/

/-- The event is an admission or an expulsion of `m`, or a core map that names them. -/
def About (m : MemberId) (event : MembershipEvent) : Prop :=
  subject event = some (.member m) ∨ ∃ core, event = .coreGroupChanged core ∧ m ∈ coreMap core

/-- The entry takes `m` out of the group. -/
def Expels (sig : Signing) (pre : Log SignedEvent) (i : ℕ) (signed : SignedEvent) (m : MemberId) :
    Prop :=
  m ∈ (fold sig pre).members ∧ m ∉ (fold sig (pre ++ [(i, signed)])).members

/-- What waits about a member is dropped when they are expelled, and never takes effect
after that. -/
def NothingOutlives (sig : Signing) (log : Log SignedEvent) : Prop :=
  ∀ pre i signed post m, log = pre ++ (i, signed) :: post → Expels sig pre i signed m →
    ∀ p entry, (fold sig pre).pending[p]? = some entry → About m entry.event →
      (fold sig (pre ++ [(i, signed)])).pending[p]? = none ∧ ∀ j, i < j → ¬EnactedAt sig log p j

/-- At `index`, no core map that can still be approved names `m`, unless `m` is core. -/
def Cleared (s : MembershipState) (index : ℕ) (m : MemberId) : Prop :=
  m ∈ s.core ∨ ∀ p entry core, s.pending[p]? = some entry → entry.event = .coreGroupChanged core →
    m ∈ coreMap core → (s.settings.pendingExpiry : ℕ) ≤ index - p

/-- **The condition**, of every expulsion of the log. -/
def ExpulsionsCleared (sig : Signing) (log : Log SignedEvent) : Prop :=
  ∀ pre i signed post m, log = pre ++ (i, signed) :: post → Expels sig pre i signed m →
    (fold sig pre).Cleared i m

/-! ## What an expulsion is -/

theorem Effect.expelled {event : MembershipEvent} (h : Effect s event t) (hm : m ∈ s.members)
    (hgone : m ∉ t.members) :
    ∃ reason, event = .memberExpelled m reason ∧ t.core = s.core.erase m := by
  cases h with
  | memberAdded member =>
    exact absurd (Std.ExtTreeMap.mem_insert.mpr (Or.inr hm)) hgone
  | pledgeChanged known => exact absurd (Std.ExtTreeMap.mem_insert.mpr (Or.inr hm)) hgone
  | protocolSupported known => exact absurd (Std.ExtTreeMap.mem_insert.mpr (Or.inr hm)) hgone
  | coreGroupChanged nonempty members distinct supported => exact absurd hm hgone
  | protocolRaised newProtocol => exact absurd hm hgone
  | @memberExpelled member reason record known =>
    by_cases hsame : member = m
    · subst hsame
      exact ⟨reason, rfl, rfl⟩
    · refine absurd (Std.ExtTreeMap.mem_erase.mpr ⟨?_, hm⟩) hgone
      exact fun hcmp => hsame (Std.LawfulEqCmp.eq_of_compare hcmp)

/-- A member who is gone after an entry was expelled by what it decided. -/
theorem Step.expelled {index : ℕ} {proposer : MemberId} {payload : MembershipEvent}
    (h : Step s index proposer payload u) (hgroup : s.group.isSome) (hm : m ∈ s.members)
    (hgone : m ∉ u.members) :
    ∃ reason, s.decides proposer payload = some (.memberExpelled m reason) ∧
      u.core = s.core.erase m := by
  cases h with
  | founded fresh checked =>
    rw [fresh] at hgroup
    cases hgroup
  | atOnce group member allowed decided enacted =>
    have hdecides := enacted.decides decided
    obtain ⟨t, ht, rfl⟩ := enacted
    obtain ⟨reason, rfl, hcore⟩ := ht.expelled hm hgone
    exact ⟨reason, hdecides, hcore⟩
  | carried group core waiting allowed decided enacted =>
    obtain ⟨t, ht, rfl⟩ := enacted
    obtain ⟨reason, hevent, hcore⟩ := ht.expelled hm hgone
    refine ⟨reason, ?_, hcore⟩
    simp only [decides, waiting, decided, if_true]
    exact congrArg some hevent
  | waits | agreed | withdrawn => exact absurd hm hgone

theorem Expels.succeeds (h : Expels sig pre i signed m) (hgroup : (fold sig pre).group.isSome) :
    ∃ u reason, Succeeds sig pre i signed u ∧
      (fold sig pre).decides signed.proposer signed.payload = some (.memberExpelled m reason) ∧
      (fold sig (pre ++ [(i, signed)])).core = (fold sig pre).core.erase m := by
  obtain ⟨hm, hgone⟩ := h
  rcases happly : ((fold sig pre).apply sig i signed).1 with error | ⟨⟩
  · rw [fold_concat, apply_atomic sig _ i signed error happly] at hgone
    exact absurd hm hgone
  · obtain ⟨u, hu⟩ := succeeds_of_apply happly
    rw [hu.next] at hgone ⊢
    obtain ⟨reason, hdecides, hcore⟩ := hu.step.expelled hgroup hm hgone
    exact ⟨u, reason, hu, hdecides, hcore⟩

/-! ## What it drops -/

/-- A core map that names `m` is superseded by their expulsion exactly when they were core. -/
theorem supersededBy_erase {core : OrdMap MemberId NodeAddr}
    {proposed : List (MemberId × NodeAddr)} (hnamed : m ∈ coreMap proposed) :
    supersededBy proposed core (core.erase m) = true ↔ m ∈ core := by
  constructor
  · intro hsuperseded
    by_contra hout
    rw [OrdMap.erase_eq_self (Std.ExtTreeMap.getElem?_eq_none hout)] at hsuperseded
    simp [supersededBy] at hsuperseded
  · intro hcore
    by_contra hstands
    have hmoved : core[m]? ≠ (core.erase m)[m]? := by
      rw [Std.ExtTreeMap.getElem?_erase_self]
      exact Option.isSome_iff_ne_none.mp (Std.ExtTreeMap.mem_iff_isSome_getElem?.mp hcore)
    have hagrees := agrees_of_not_superseded (Bool.eq_false_iff.mpr hstands) hmoved hnamed
    rw [Std.ExtTreeMap.getElem?_erase_self] at hagrees
    exact Option.isSome_iff_ne_none.mp (Std.ExtTreeMap.mem_iff_isSome_getElem?.mp hnamed) hagrees

/-- A proposal does not stand after a change of the same subject, the core group apart. -/
theorem not_standsAfter_of_subject {about : Option Subject} {before now : OrdMap MemberId NodeAddr}
    (h : subject entry.event = about) (hother : about ≠ some .coreGroup) :
    standsAfter about before now entry = false := by
  obtain ⟨event, proposer, approvals⟩ := entry
  cases event with
  | coreGroupChanged core => exact absurd h.symm hother
  | _ => exact decide_eq_false (not_not.mpr h)

/-- **One expulsion.** What waits about the member is gone after it, unless it is a core
map, the member was not core, and the map is within its expiry. -/
theorem Expels.drops_iff (hasc : Ascending (pre ++ [(i, signed)])) (h : Expels sig pre i signed m)
    (hp : (fold sig pre).pending[p]? = some entry) :
    (subject entry.event = some (.member m) →
        (fold sig (pre ++ [(i, signed)])).pending[p]? = none) ∧
      ∀ core, entry.event = .coreGroupChanged core → m ∈ coreMap core →
        ((fold sig (pre ++ [(i, signed)])).pending[p]? = none ↔
          m ∈ (fold sig pre).core ∨ ((fold sig pre).settings.pendingExpiry : ℕ) ≤ i - p) := by
  obtain ⟨u, reason, hu, hdecides, hcore⟩ := h.succeeds (founded_of_pending sig pre hasc.left p entry hp)
  by_cases hcarried : (fold sig pre).Carried signed.proposer signed.payload p entry
  · -- the entry is the approval that decides this very proposal, so it is the expulsion
    refine ⟨fun _ => (hu.of_carried hp hcarried).1, ?_⟩
    intro core hmap hnamed
    obtain ⟨hpayload, hdecided⟩ := hcarried
    simp only [decides, hpayload, hp, hdecided, if_true] at hdecides
    rw [hmap] at hdecides
    cases hdecides
  · obtain ⟨-, hwhere⟩ := hu.of_not_carried hasc hp hcarried
    have hgone : (fold sig (pre ++ [(i, signed)])).pending[p]? = none ↔ Drops sig pre i signed p := by
      rcases hwhere with ⟨⟨kept, hkept⟩, hnot⟩ | ⟨hnone, hdrops⟩
      · rw [hkept]
        exact ⟨(fun hnone => by cases hnone), fun hdrops => absurd hdrops hnot⟩
      · exact ⟨fun _ => hdrops, fun _ => hnone⟩
    have hdrops : Drops sig pre i signed p ↔
        standsAfter (some (.member m)) (fold sig pre).core ((fold sig pre).core.erase m) entry = false ∨
          ((fold sig pre).settings.pendingExpiry : ℕ) ≤ i - p := by
      constructor
      · rintro ⟨-, other, hother, -, hleaves⟩
        obtain rfl := Option.some.inj (hp.symm.trans hother)
        cases hleaves with
        | withdrawn taken =>
          rw [taken] at hdecides
          cases hdecides
        | superseded decided stale =>
          obtain rfl := Option.some.inj (hdecides.symm.trans decided)
          rw [hcore] at stale
          exact Or.inl stale
        | expired late => exact Or.inr late
      · intro hleaves
        refine ⟨hu.ok, entry, hp, hcarried, ?_⟩
        rcases hleaves with hstale | hlate
        · exact .superseded hdecides (by rw [hcore]; exact hstale)
        · exact .expired hlate
    rw [hgone, hdrops]
    refine ⟨?_, ?_⟩
    · intro hsubject
      exact Or.inl (not_standsAfter_of_subject hsubject fun heq => by cases heq)
    · intro core hmap hnamed
      simp only [standsAfter, hmap, Bool.not_eq_false', supersededBy_erase hnamed]

/-! ## Over the log -/

/-- What left the table is not enacted by any entry after that. -/
theorem gone_append (hgone : (fold sig pre).pending[p]? = none) (hlater : ∀ other ∈ post, p ≠ other.1) :
    (fold sig (pre ++ post)).pending[p]? = none ∧
      ∀ j, ¬Occurs (fun since k other => k = j ∧ Enacts sig (pre ++ since) k other p) post := by
  induction post using List.reverseRecOn with
  | nil =>
    rw [List.append_nil]
    exact ⟨hgone, fun _ => not_occurs_nil⟩
  | append_singleton post last ih =>
    obtain ⟨k, other⟩ := last
    obtain ⟨hnone, hnever⟩ := ih fun entry hentry => hlater entry (List.mem_append_left _ hentry)
    obtain ⟨hstill, hnot, -⟩ := gone_concat sig other hnone
      (hlater (k, other) (List.mem_append_right _ (List.mem_singleton_self _)))
    rw [← List.append_assoc]
    refine ⟨hstill, ?_⟩
    intro j
    rw [occurs_concat, not_or]
    exact ⟨hnever j, fun h => hnot h.2⟩

/-- What an entry has taken out of the table takes effect at no later one. -/
theorem not_enactedAt_of_gone (hasc : Ascending (pre ++ (i, signed) :: post)) (hlt : p < i)
    (hgone : (fold sig (pre ++ [(i, signed)])).pending[p]? = none) (hij : i < j) :
    ¬EnactedAt sig (pre ++ (i, signed) :: post) p j := by
  have hlater : ∀ other ∈ post, i < other.1 := by
    intro other hother
    rw [List.append_cons] at hasc
    exact hasc.lt_of_mem (List.mem_append_right pre (List.mem_singleton_self (i, signed))) hother
  have hnever := (gone_append hgone fun other hother => (hlt.trans (hlater other hother)).ne).2 j
  rw [List.append_cons] at hasc ⊢
  intro henacted
  rcases occurs_append.mp henacted with hbefore | hafter
  · obtain ⟨init, k, other, hmem, rfl, -⟩ := hbefore.exists_mem
    rcases List.mem_append.mp hmem with hold | hlast
    · exact absurd (hasc.left.lt_last hold) (not_lt.mpr hij.le)
    · obtain ⟨rfl, -⟩ := Prod.mk.inj (List.mem_singleton.mp hlast)
      exact lt_irrefl k hij
  · exact hnever hafter

/-- **No proposal outlives the membership it was agreed to for, exactly when** every member
expelled was core, or was named by no core map that could still be approved: in every log,
whatever else is proposed, approved, expelled and admitted in between. -/
theorem nothing_outlives_iff (sig : Signing) (log : Log SignedEvent) (hasc : Ascending log) :
    NothingOutlives sig log ↔ ExpulsionsCleared sig log := by
  have hupto : ∀ {pre post : Log SignedEvent} {i : ℕ} {signed : SignedEvent},
      log = pre ++ (i, signed) :: post → Ascending (pre ++ [(i, signed)]) := by
    rintro pre post i signed rfl
    rw [List.append_cons] at hasc
    exact hasc.left
  constructor
  · intro hnothing pre i signed post m hsplit hexpels
    refine or_iff_not_imp_left.mpr ?_
    intro hout p entry core hp hmap hnamed
    have hgone := (hnothing pre i signed post m hsplit hexpels p entry hp
      (Or.inr ⟨core, hmap, hnamed⟩)).1
    exact (((hexpels.drops_iff (hupto hsplit) hp).2 core hmap hnamed).mp hgone).resolve_left hout
  · intro hcleared pre i signed post m hsplit hexpels p entry hp habout
    obtain ⟨hsubject, hmaps⟩ := hexpels.drops_iff (hupto hsplit) hp
    have hgone : (fold sig (pre ++ [(i, signed)])).pending[p]? = none := by
      rcases habout with hmember | ⟨core, hmap, hnamed⟩
      · exact hsubject hmember
      · refine (hmaps core hmap hnamed).mpr ?_
        exact (hcleared pre i signed post m hsplit hexpels).imp_right fun hnone =>
          hnone p entry core hp hmap hnamed
    refine ⟨hgone, ?_⟩
    intro j hij
    subst hsplit
    exact not_enactedAt_of_gone hasc (pending_lt (hupto rfl) hp) hgone hij

/-! ## Dave comes back as a voter -/

namespace Sample

def threeFounders : Log SignedEvent :=
  [(1, .signedBy alice 0 (.groupFounded ⟨9⟩
      [(⟨alice, "alice"⟩, default), (⟨bob, "bob"⟩, default), (⟨carol, "carol"⟩, default)] default)),
   (2, .signedBy alice 1 (.memberAdded ⟨dave, "dave"⟩))]

/-- Alice wants dave in the core, and bob has him expelled. -/
def daveNamed : Log SignedEvent :=
  threeFounders ++
    [(3, .signedBy alice 2 (.coreGroupChanged
      [(alice, default), (bob, default), (carol, default), (dave, default)]))]

/-- Carol admits dave again, and then agrees to what alice wanted. -/
def daveReadmitted : Log SignedEvent :=
  daveNamed ++
    [(4, .signedBy bob 3 (.memberExpelled dave "gone")),
     (5, .signedBy carol 4 (.memberAdded ⟨dave, "dave"⟩)),
     (6, .signedBy carol 5 (.approved 3))]

/-- **Alice's approval outlives dave's expulsion**: her map waits through it, and makes him
core on the approval she gave before. -/
theorem dave_promoted_on_old_approval :
    Ascending daveReadmitted ∧
      (fold .accepting daveNamed).pending[3]?.map Proposal.approvals = some {alice} ∧
      dave ∉ (fold .accepting (daveReadmitted.take 4)).members ∧
      (fold .accepting (daveReadmitted.take 4)).pending[3]?.map Proposal.approvals = some {alice} ∧
      dave ∈ (fold .accepting daveReadmitted).core ∧
      ¬NothingOutlives .accepting daveReadmitted := by
  refine ⟨by decide, by decide +kernel, by decide +kernel, by decide +kernel, by decide +kernel, ?_⟩
  intro hnothing
  have hgone := (hnothing daveNamed 4 (.signedBy bob 3 (.memberExpelled dave "gone"))
    [(5, .signedBy carol 4 (.memberAdded ⟨dave, "dave"⟩)), (6, .signedBy carol 5 (.approved 3))]
    dave (by decide +kernel) ⟨by decide +kernel, by decide +kernel⟩ 3
    ⟨.coreGroupChanged [(alice, default), (bob, default), (carol, default), (dave, default)],
      alice, {alice}⟩ (by decide +kernel) (Or.inr ⟨_, rfl, by decide +kernel⟩)).1
  exact absurd hgone (by decide +kernel)

/-- The same expulsion, with no core map waiting. -/
def daveExpelledFirst : Log SignedEvent :=
  threeFounders ++ [(3, .signedBy bob 2 (.memberExpelled dave "gone"))]

theorem nothing_outlives_dave : NothingOutlives .accepting daveExpelledFirst := by
  refine (nothing_outlives_iff .accepting daveExpelledFirst (by decide)).mpr ?_
  intro pre i signed post m hsplit hexpels
  refine Or.inr ?_
  intro p entry core hp
  have hempty : ∀ count, (fold .accepting (daveExpelledFirst.take count)).pending = ∅ := by
    intro count
    rcases Nat.lt_or_ge count 3 with hlt | hge
    · interval_cases count <;> decide +kernel
    · rw [List.take_of_length_le (by exact hge)]
      decide +kernel
  have hpre : pre = daveExpelledFirst.take pre.length := by
    rw [hsplit, List.take_left]
  rw [hpre, hempty] at hp
  simp at hp

end Sample

end MembershipState

end Distlib
