import Distlib.Core.Custody

/-!
# Minimal disruption

A pledge changes, a member joins or leaves, and every node recomputes who keeps
what. Each item that changes hands is moved between members, so as few as
possible may.

Two groups are compared through the sets of scored candidates they give an item
(`mem_ranked_new`) and the slots they leave for it (`slots_new`), and what can
happen between the two is `Ranking.top_of_subset`, `Ranking.last_of_fewer_slots`
and `Ranking.exists_displaced`. What is particular to the program is where the
slots come from: a creator who is a member holds a copy by authorship, so a
creator leaving opens a slot and a creator joining takes one.
-/

namespace Distlib

open Ranking

/-- A weight does not fall as the pledge grows. -/
theorem WeightRule.weight_mono (rule : WeightRule) : Monotone rule.weight := by
  intro a b hab
  have hcapped : min a rule.capBytes ≤ min b rule.capBytes := min_le_min_right _ hab
  have hfloor : ∀ c step : ℕ, c - c % step = step * (c / step) := by
    intro c step
    have hdiv := Nat.div_add_mod c step
    omega
  unfold weight
  split
  · exact Nat.zero_le _
  · rw [if_neg (by omega)]
    simp only
    split
    · exact hcapped
    · rw [hfloor, hfloor]
      exact Nat.mul_le_mul_left _ (Nat.div_le_div_right hcapped)

namespace CustodyGroup

section New

variable {replicas : ℕ} {rule : WeightRule} {pledges : List (MemberId × ℕ)}

/-- With distinct members, building the group only sorts them. -/
theorem members_new_perm (h : (pledges.map Prod.fst).Nodup) :
    (new replicas rule pledges).members.Perm pledges := by
  have hperm : (sortedPledges pledges).Perm pledges := List.perm_insertionSort _ _
  have hnodup : (sortedPledges pledges).Pairwise fun a b => a.1 ≠ b.1 :=
    List.pairwise_map.mp ((hperm.map Prod.fst).nodup_iff.mpr h)
  have hdedup : dedupByMember (sortedPledges pledges) = sortedPledges pledges :=
    List.destutter_of_isChain _ _ hnodup.isChain
  change (dedupByMember (sortedPledges pledges)).Perm pledges
  rw [hdedup]
  exact hperm

theorem mem_members_new (h : (pledges.map Prod.fst).Nodup) {entry : MemberId × ℕ} :
    entry ∈ (new replicas rule pledges).members ↔ entry ∈ pledges :=
  (members_new_perm h).mem_iff

theorem mem_weighted_new (h : (pledges.map Prod.fst).Nodup) {member : MemberId} {weight : ℕ} :
    (member, weight) ∈ (new replicas rule pledges).weighted ↔
      0 < weight ∧ ∃ pledge, (member, pledge) ∈ pledges ∧ rule.weight pledge = weight := by
  have hweighted : (new replicas rule pledges).weighted =
      weigh rule (new replicas rule pledges).members := rfl
  rw [hweighted, weigh, List.mem_filter, List.mem_map]
  constructor
  · rintro ⟨⟨⟨m, pledge⟩, hmem, heq⟩, hpos⟩
    obtain ⟨rfl, rfl⟩ := Prod.mk.inj heq
    exact ⟨by simpa using hpos, pledge, (mem_members_new h).mp hmem, rfl⟩
  · rintro ⟨hpos, pledge, hmem, rfl⟩
    exact ⟨⟨_, (mem_members_new h).mpr hmem, rfl⟩, by simpa using hpos⟩

/-- Whether a creator of `item` is among those who pledged. -/
def CreatedHere (pledges : List (MemberId × ℕ)) (item : CustodyItem) : Prop :=
  ∃ creator ∈ item.creators, creator ∈ pledges.map Prod.fst

/-- A slot is taken exactly while a creator is a member. -/
theorem slots_new (replicas : ℕ) (rule : WeightRule) (h : (pledges.map Prod.fst).Nodup)
    (item : CustodyItem) :
    (CreatedHere pledges item ∧ (new replicas rule pledges).slots item = replicas - 1) ∨
      (¬CreatedHere pledges item ∧ (new replicas rule pledges).slots item = replicas) := by
  have hiff : (item.creators.any fun creator =>
      (new replicas rule pledges).members.any fun entry => entry.1 = creator) = true ↔
      CreatedHere pledges item := by
    simp only [List.any_eq_true, decide_eq_true_eq, CreatedHere, List.mem_map, mem_members_new h]
  by_cases hcreated : CreatedHere pledges item
  · refine Or.inl ⟨hcreated, ?_⟩
    simp only [slots, hiff.mpr hcreated]
    rfl
  · refine Or.inr ⟨hcreated, ?_⟩
    simp only [slots, Bool.eq_false_iff.mpr (fun htrue => hcreated (hiff.mp htrue))]
    rfl

theorem CreatedHere.mono {pledges' : List (MemberId × ℕ)} {item : CustodyItem}
    (hsub : ∀ member ∈ pledges.map Prod.fst, member ∈ pledges'.map Prod.fst)
    (h : CreatedHere pledges item) : CreatedHere pledges' item := by
  obtain ⟨creator, hcreator, hmem⟩ := h
  exact ⟨creator, hcreator, hsub creator hmem⟩

end New

section Score

variable {S : Type} [LinearOrder S] (score : ItemId → MemberId → ℕ → S)

/-- With one member, the higher score ranks higher. -/
theorem Ranked.new_le_new {item : ItemId} {member : MemberId} {a b : ℕ}
    (h : score item member a ≤ score item member b) :
    Ranked.new score item member a ≤ Ranked.new score item member b := by
  change toLex (score item member a, OrderDual.toDual member.place) ≤
    toLex (score item member b, OrderDual.toDual member.place)
  rw [Prod.Lex.toLex_le_toLex]
  rcases h.lt_or_eq with hlt | heq
  · exact Or.inl hlt
  · exact Or.inr ⟨heq, le_rfl⟩

section Groups

variable {replicas : ℕ} {rule : WeightRule} {pledges : List (MemberId × ℕ)} {item : CustodyItem}

omit [LinearOrder S] in
/-- The scored candidates of a group, from its pledges. -/
theorem mem_ranked_new (h : (pledges.map Prod.fst).Nodup) {r : Ranked S} :
    r ∈ (new replicas rule pledges).ranked score item ↔
      ∃ pledge, (r.member, pledge) ∈ pledges ∧ 0 < rule.weight pledge ∧
        r.member ∉ item.creators ∧ r = .new score item.item r.member (rule.weight pledge) := by
  rw [mem_ranked]
  constructor
  · rintro ⟨weight, hcandidate, hr⟩
    obtain ⟨hweighted, hcreator⟩ := mem_candidates.mp hcandidate
    obtain ⟨hpos, pledge, hmem, rfl⟩ := (mem_weighted_new h).mp hweighted
    exact ⟨pledge, hmem, hpos, hcreator, hr⟩
  · rintro ⟨pledge, hmem, hpos, hcreator, hr⟩
    refine ⟨_, mem_candidates.mpr ⟨(mem_weighted_new h).mpr ⟨hpos, pledge, hmem, rfl⟩, hcreator⟩, hr⟩

/-- The custodians are the members of the highest scored candidates. -/
theorem mem_custodians_iff_top (sel : Selection (Ranked S)) {group : CustodyGroup}
    {member : MemberId} :
    member ∈ group.custodians score sel item ↔
      ∃ r ∈ top (group.slots item) (group.ranked score item).toFinset, r.member = member := by
  rw [custodians_eq, List.mem_map]
  simp only [mem_take_descending (ranked_nodup score group item)]

/-- With one slot fewer than it takes above, a candidate is the last custodian. -/
theorem getLast?_custodians (sel : Selection (Ranked S)) {group : CustodyGroup} {r : Ranked S}
    (hr : r ∈ top (group.slots item) (group.ranked score item).toFinset)
    (hlast : above (group.ranked score item).toFinset r + 1 = group.slots item) :
    (group.custodians score sel item).getLast? = some r.member := by
  have hmem := List.mem_toFinset.mp (mem_top.mp hr).1
  rw [custodians_eq, List.getLast?_map,
    getLast?_take_descending (ranked_nodup score group item) hmem hlast]
  rfl

/-- A group of fewer members, with no fewer slots, keeps every custodian it still
has. -/
theorem custodian_of_removed (sel : Selection (Ranked S)) (h : (pledges.map Prod.fst).Nodup)
    {m member : MemberId}
    (hbefore : member ∈ (new replicas rule pledges).custodians score sel item) (hne : member ≠ m) :
    member ∈ (new replicas rule (pledges.filter fun entry => entry.1 ≠ m)).custodians score sel
      item := by
  have h' : ((pledges.filter fun entry => entry.1 ≠ m).map Prod.fst).Nodup :=
    h.sublist (List.filter_sublist.map _)
  have hslots : (new replicas rule pledges).slots item ≤
      (new replicas rule (pledges.filter fun entry => entry.1 ≠ m)).slots item := by
    have hmono : CreatedHere (pledges.filter fun entry => entry.1 ≠ m) item →
        CreatedHere pledges item :=
      CreatedHere.mono fun _ hmem => (List.filter_sublist.map Prod.fst).subset hmem
    rcases slots_new replicas rule h item with ⟨hc, hs⟩ | ⟨hc, hs⟩ <;>
      rcases slots_new replicas rule h' item with ⟨hc', hs'⟩ | ⟨hc', hs'⟩
    · omega
    · omega
    · exact absurd (hmono hc') hc
    · omega
  rw [mem_custodians_iff_top] at hbefore ⊢
  obtain ⟨r, hr, rfl⟩ := hbefore
  obtain ⟨pledge, hmem, hpos, hcreator, heq⟩ :=
    (mem_ranked_new score h).mp (List.mem_toFinset.mp (mem_top.mp hr).1)
  refine ⟨r, top_of_subset ?_ hslots hr ?_, rfl⟩
  · intro z hz
    obtain ⟨pledge, hmem, hrest⟩ := (mem_ranked_new score h').mp (List.mem_toFinset.mp hz)
    exact List.mem_toFinset.mpr
      ((mem_ranked_new score h).mpr ⟨pledge, (List.mem_filter.mp hmem).1, hrest⟩)
  · refine List.mem_toFinset.mpr ((mem_ranked_new score h').mpr ⟨pledge, ?_, hpos, hcreator, heq⟩)
    exact List.mem_filter.mpr ⟨hmem, by simpa using hne⟩

section Added

variable {pledges' : List (MemberId × ℕ)} {m : MemberId} {p : ℕ}

theorem nodup_added (h : (pledges.map Prod.fst).Nodup) (hnew : m ∉ pledges.map Prod.fst)
    (hperm : pledges'.Perm ((m, p) :: pledges)) : (pledges'.map Prod.fst).Nodup :=
  (hperm.map Prod.fst).nodup_iff.mpr (List.nodup_cons.mpr ⟨hnew, h⟩)

omit [LinearOrder S] in
/-- Who is scored once `m` has joined: `m`, if it may be, and all the others as
before. -/
theorem mem_ranked_added (h : (pledges.map Prod.fst).Nodup) (hnew : m ∉ pledges.map Prod.fst)
    (hperm : pledges'.Perm ((m, p) :: pledges)) {r : Ranked S} :
    r ∈ (new replicas rule pledges').ranked score item ↔
      (r = .new score item.item m (rule.weight p) ∧ 0 < rule.weight p ∧ m ∉ item.creators) ∨
        r ∈ (new replicas rule pledges).ranked score item := by
  rw [mem_ranked_new score (nodup_added h hnew hperm), mem_ranked_new score h]
  constructor
  · rintro ⟨pledge, hmem, hpos, hcreator, heq⟩
    rcases List.mem_cons.mp (hperm.mem_iff.mp hmem) with hentry | hmem
    · obtain ⟨hm, rfl⟩ := Prod.mk.inj hentry
      rw [hm] at heq hcreator
      exact Or.inl ⟨heq, hpos, hcreator⟩
    · exact Or.inr ⟨pledge, hmem, hpos, hcreator, heq⟩
  · rintro (⟨rfl, hpos, hcreator⟩ | ⟨pledge, hmem, hrest⟩)
    · exact ⟨p, hperm.mem_iff.mpr (List.mem_cons_self ..), hpos, hcreator, rfl⟩
    · exact ⟨pledge, hperm.mem_iff.mpr (List.mem_cons_of_mem _ hmem), hrest⟩

/-- A new member takes at most one slot away, its own copy's, and none if it is
no creator. -/
theorem slots_added (replicas : ℕ) (rule : WeightRule) (item : CustodyItem)
    (h : (pledges.map Prod.fst).Nodup) (hnew : m ∉ pledges.map Prod.fst)
    (hperm : pledges'.Perm ((m, p) :: pledges)) :
    (new replicas rule pledges).slots item ≤ (new replicas rule pledges').slots item + 1 ∧
      (m ∉ item.creators →
        (new replicas rule pledges').slots item = (new replicas rule pledges).slots item) := by
  have hkeys := hperm.map Prod.fst
  have hthere : CreatedHere pledges item → CreatedHere pledges' item :=
    CreatedHere.mono fun member hmem => hkeys.mem_iff.mpr (List.mem_cons_of_mem _ hmem)
  have hback : m ∉ item.creators → CreatedHere pledges' item → CreatedHere pledges item := by
    rintro hcreator ⟨creator, hc, hmem⟩
    rcases List.mem_cons.mp (hkeys.mem_iff.mp hmem) with rfl | hmem
    · exact absurd hc hcreator
    · exact ⟨creator, hc, hmem⟩
  rcases slots_new replicas rule h item with ⟨hc, hs⟩ | ⟨hc, hs⟩ <;>
    rcases slots_new replicas rule (nodup_added h hnew hperm) item with ⟨hc', hs'⟩ | ⟨hc', hs'⟩
  · exact ⟨by omega, fun _ => by omega⟩
  · exact absurd (hthere hc) hc'
  · exact ⟨by omega, fun hcreator => absurd (hback hcreator hc') hc⟩
  · exact ⟨by omega, fun _ => by omega⟩

/-- Whom a new member displaces: the last, and only by being a custodian or by
being a creator whose copy takes a slot. -/
theorem displaced_by_added (sel : Selection (Ranked S)) {x : MemberId}
    (h : (pledges.map Prod.fst).Nodup) (hnew : m ∉ pledges.map Prod.fst)
    (hperm : pledges'.Perm ((m, p) :: pledges))
    (hbefore : x ∈ (new replicas rule pledges).custodians score sel item)
    (hlost : x ∉ (new replicas rule pledges').custodians score sel item) :
    ((new replicas rule pledges).custodians score sel item).getLast? = some x ∧
      (m ∈ (new replicas rule pledges').custodians score sel item ∨
        (m ∈ item.creators ∧ (new replicas rule pledges').slots item + 1 =
          (new replicas rule pledges).slots item)) := by
  obtain ⟨hslots, hsame⟩ := slots_added replicas rule item h hnew hperm
  rw [mem_custodians_iff_top] at hbefore hlost
  obtain ⟨r, hr, rfl⟩ := hbefore
  have hr' : r ∈ ((new replicas rule pledges').ranked score item).toFinset :=
    List.mem_toFinset.mpr ((mem_ranked_added score h hnew hperm).mpr
      (Or.inr (List.mem_toFinset.mp (mem_top.mp hr).1)))
  have hlost' : r ∉ top ((new replicas rule pledges').slots item)
      ((new replicas rule pledges').ranked score item).toFinset := fun htop => hlost ⟨r, htop, rfl⟩
  by_cases hcreator : m ∈ item.creators
  · -- nobody new is scored, and there may be a slot fewer
    have hsub : ((new replicas rule pledges').ranked score item).toFinset ⊆
        ((new replicas rule pledges).ranked score item).toFinset := by
      intro z hz
      have hz' := (mem_ranked_added score h hnew hperm).mp (List.mem_toFinset.mp hz)
      exact List.mem_toFinset.mpr (hz'.resolve_left fun hm => hm.2.2 hcreator)
    have hfewer : ¬(new replicas rule pledges).slots item ≤ (new replicas rule pledges').slots item :=
      fun hle => hlost' (top_of_subset hsub hle hr hr')
    refine ⟨getLast?_custodians score sel hr (last_of_fewer_slots hsub hslots hr hr' hlost'), ?_⟩
    exact Or.inr ⟨hcreator, by omega⟩
  · -- the slots are as they were, and only `m` is new
    rw [hsame hcreator] at hlost'
    have hsub : ((new replicas rule pledges').ranked score item).toFinset ⊆
        insert (.new score item.item m (rule.weight p))
          ((new replicas rule pledges).ranked score item).toFinset := by
      intro z hz
      rcases (mem_ranked_added score h hnew hperm).mp (List.mem_toFinset.mp hz) with ⟨rfl, -⟩ | hold
      · exact Finset.mem_insert_self _ _
      · exact Finset.mem_insert_of_mem (List.mem_toFinset.mpr hold)
    obtain ⟨hlast, -, hkept⟩ := exists_displaced hsub hr hr' hlost'
    refine ⟨getLast?_custodians score sel hr hlast, Or.inl ?_⟩
    rw [mem_custodians_iff_top, hsame hcreator]
    exact ⟨_, hkept, rfl⟩

end Added

/-- The pledges with `m`'s at `pledge`. -/
def withPledge (pledges : List (MemberId × ℕ)) (m : MemberId) (pledge : ℕ) :
    List (MemberId × ℕ) :=
  pledges.map fun entry => if entry.1 = m then (m, pledge) else entry

theorem map_fst_withPledge (pledges : List (MemberId × ℕ)) (m : MemberId) (pledge : ℕ) :
    (withPledge pledges m pledge).map Prod.fst = pledges.map Prod.fst := by
  rw [withPledge, List.map_map]
  refine List.map_congr_left fun entry _ => ?_
  simp only [Function.comp]
  split
  · rename_i heq
    exact heq.symm
  · rfl

theorem mem_withPledge {m x : MemberId} {p p' q : ℕ} (hm : (m, p) ∈ pledges) :
    (x, q) ∈ withPledge pledges m p' ↔ (x = m ∧ q = p') ∨ (x ≠ m ∧ (x, q) ∈ pledges) := by
  simp only [withPledge, List.mem_map]
  constructor
  · rintro ⟨⟨y, c⟩, hmem, heq⟩
    split at heq
    · obtain ⟨rfl, rfl⟩ := Prod.mk.inj heq
      exact Or.inl ⟨rfl, rfl⟩
    · rename_i hne
      obtain ⟨rfl, rfl⟩ := Prod.mk.inj heq
      exact Or.inr ⟨hne, hmem⟩
  · rintro (⟨rfl, rfl⟩ | ⟨hne, hmem⟩)
    · exact ⟨(x, p), hm, by simp⟩
    · exact ⟨(x, q), hmem, by simp [hne]⟩

theorem slots_withPledge (h : (pledges.map Prod.fst).Nodup) (m : MemberId) (p' : ℕ) :
    (new replicas rule (withPledge pledges m p')).slots item =
      (new replicas rule pledges).slots item := by
  have hkeys := map_fst_withPledge pledges m p'
  have h' : ((withPledge pledges m p').map Prod.fst).Nodup := by rwa [hkeys]
  have hiff : CreatedHere (withPledge pledges m p') item ↔ CreatedHere pledges item := by
    rw [CreatedHere, CreatedHere, hkeys]
  rcases slots_new replicas rule h item with ⟨hc, hs⟩ | ⟨hc, hs⟩ <;>
    rcases slots_new replicas rule h' item with ⟨hc', hs'⟩ | ⟨hc', hs'⟩
  · rw [hs, hs']
  · exact absurd (hiff.mpr hc) hc'
  · exact absurd (hiff.mp hc') hc
  · rw [hs, hs']

omit [LinearOrder S] in
/-- Whoever is scored after `m`'s pledge changed: `m` with its new weight, or
somebody else as before. -/
theorem mem_ranked_withPledge (h : (pledges.map Prod.fst).Nodup) {m : MemberId} {p p' : ℕ}
    (hm : (m, p) ∈ pledges) {r : Ranked S} :
    r ∈ (new replicas rule (withPledge pledges m p')).ranked score item ↔
      (r = .new score item.item m (rule.weight p') ∧ 0 < rule.weight p' ∧ m ∉ item.creators) ∨
        (r.member ≠ m ∧ r ∈ (new replicas rule pledges).ranked score item) := by
  have h' : ((withPledge pledges m p').map Prod.fst).Nodup := by rwa [map_fst_withPledge]
  rw [mem_ranked_new score h', mem_ranked_new score h]
  constructor
  · rintro ⟨pledge, hmem, hpos, hcreator, heq⟩
    rcases (mem_withPledge hm).mp hmem with ⟨hmember, rfl⟩ | ⟨hne, hmem⟩
    · rw [hmember] at heq hcreator
      exact Or.inl ⟨heq, hpos, hcreator⟩
    · exact Or.inr ⟨hne, pledge, hmem, hpos, hcreator, heq⟩
  · rintro (⟨rfl, hpos, hcreator⟩ | ⟨hne, pledge, hmem, hrest⟩)
    · exact ⟨p', (mem_withPledge hm).mpr (Or.inl ⟨rfl, rfl⟩), hpos, hcreator, rfl⟩
    · exact ⟨pledge, (mem_withPledge hm).mpr (Or.inr ⟨hne, hmem⟩), hrest⟩

omit [LinearOrder S] in
/-- `m` itself is scored by its own pledge. -/
theorem ranked_of_member (h : (pledges.map Prod.fst).Nodup) {m : MemberId} {p : ℕ}
    (hm : (m, p) ∈ pledges) {r : Ranked S} (hmember : r.member = m)
    (hr : r ∈ (new replicas rule pledges).ranked score item) :
    r = .new score item.item m (rule.weight p) ∧ 0 < rule.weight p ∧ m ∉ item.creators := by
  obtain ⟨pledge, hmem, hpos, hcreator, heq⟩ := (mem_ranked_new score h).mp hr
  rw [hmember] at hmem hcreator heq
  have hsame := List.inj_on_of_nodup_map h hmem hm rfl
  obtain rfl : pledge = p := congrArg Prod.snd hsame
  exact ⟨heq, hpos, hcreator⟩

/-- Raising its pledge never makes a member lose an item. -/
theorem custodian_of_raised (sel : Selection (Ranked S))
    (hscore : ∀ item member, Monotone (score item member)) (h : (pledges.map Prod.fst).Nodup)
    {m : MemberId} {p p' : ℕ} (hm : (m, p) ∈ pledges) (hle : p ≤ p')
    (hbefore : m ∈ (new replicas rule pledges).custodians score sel item) :
    m ∈ (new replicas rule (withPledge pledges m p')).custodians score sel item := by
  rw [mem_custodians_iff_top] at hbefore ⊢
  obtain ⟨r, hr, hmember⟩ := hbefore
  obtain ⟨hmem, hlt⟩ := mem_top.mp hr
  obtain ⟨rfl, hpos, hcreator⟩ := ranked_of_member score h hm hmember (List.mem_toFinset.mp hmem)
  have hweight := rule.weight_mono hle
  refine ⟨.new score item.item m (rule.weight p'), mem_top.mpr ⟨List.mem_toFinset.mpr ?_, ?_⟩, rfl⟩
  · exact (mem_ranked_withPledge score h hm).mpr (Or.inl ⟨rfl, by omega, hcreator⟩)
  · rw [slots_withPledge h]
    refine lt_of_le_of_lt (above_le_above fun z hz hz' => ?_) hlt
    rcases (mem_ranked_withPledge score h hm).mp (List.mem_toFinset.mp hz) with ⟨rfl, -⟩ | ⟨-, hold⟩
    · exact absurd hz' (lt_irrefl _)
    · exact ⟨List.mem_toFinset.mpr hold,
        lt_of_le_of_lt (Ranked.new_le_new score (hscore _ _ hweight)) hz'⟩

/-- Whom a raised member displaces: the last, and only by becoming a custodian. -/
theorem displaced_by_raised (sel : Selection (Ranked S))
    (hscore : ∀ item member, Monotone (score item member)) (h : (pledges.map Prod.fst).Nodup)
    {m x : MemberId} {p p' : ℕ} (hm : (m, p) ∈ pledges) (hle : p ≤ p')
    (hbefore : x ∈ (new replicas rule pledges).custodians score sel item)
    (hlost : x ∉ (new replicas rule (withPledge pledges m p')).custodians score sel item) :
    ((new replicas rule pledges).custodians score sel item).getLast? = some x ∧
      m ∈ (new replicas rule (withPledge pledges m p')).custodians score sel item ∧
      m ∉ (new replicas rule pledges).custodians score sel item := by
  have hxm : x ≠ m := by
    rintro rfl
    exact hlost (custodian_of_raised score sel hscore h hm hle hbefore)
  rw [mem_custodians_iff_top, slots_withPledge h] at hlost
  rw [mem_custodians_iff_top] at hbefore
  obtain ⟨r, hr, rfl⟩ := hbefore
  have hr' : r ∈ ((new replicas rule (withPledge pledges m p')).ranked score item).toFinset :=
    List.mem_toFinset.mpr ((mem_ranked_withPledge score h hm).mpr
      (Or.inr ⟨hxm, List.mem_toFinset.mp (mem_top.mp hr).1⟩))
  have hlost' : r ∉ top ((new replicas rule pledges).slots item)
      ((new replicas rule (withPledge pledges m p')).ranked score item).toFinset :=
    fun htop => hlost ⟨r, htop, rfl⟩
  -- `m` was scored by its old pledge, if at all
  have hsub : ((new replicas rule (withPledge pledges m p')).ranked score item).toFinset ⊆
      insert (.new score item.item m (rule.weight p'))
        (((new replicas rule pledges).ranked score item).toFinset.erase
          (.new score item.item m (rule.weight p))) := by
    intro z hz
    rcases (mem_ranked_withPledge score h hm).mp (List.mem_toFinset.mp hz) with ⟨rfl, -⟩ | ⟨hne, hold⟩
    · exact Finset.mem_insert_self _ _
    · refine Finset.mem_insert_of_mem (Finset.mem_erase.mpr ⟨?_, List.mem_toFinset.mpr hold⟩)
      rintro rfl
      exact hne rfl
  have hins := hsub.trans (Finset.insert_subset_insert _ (Finset.erase_subset _ _))
  obtain ⟨hlast, -, hkept⟩ := exists_displaced hins hr hr' hlost'
  refine ⟨getLast?_custodians score sel hr hlast, ?_, ?_⟩
  · rw [mem_custodians_iff_top, slots_withPledge h]
    exact ⟨_, hkept, rfl⟩
  · rw [mem_custodians_iff_top]
    rintro ⟨r', hr'', hmember⟩
    obtain ⟨rfl, -⟩ :=
      ranked_of_member score h hm hmember (List.mem_toFinset.mp (mem_top.mp hr'').1)
    refine not_mem_top_of_raised hsub hr hr' ?_ hlost' hr''
    rintro rfl
    exact hxm rfl

end Groups

/-- **Minimal disruption of custody.** In a group of distinct members, for any
item and replica count and a score that does not fall as the weight grows:
removing a member leaves every other custodian one; adding a member displaces at
most the lowest ranked custodian, and only if the new member is a custodian or is
a creator whose own copy takes a slot; and raising a pledge displaces at most the
lowest ranked custodian, only if the raised member becomes a custodian, and never
the raised member itself. -/
theorem custody_minimal_disruption (hscore : ∀ item member, Monotone (score item member))
    (sel : Selection (Ranked S)) (replicas : ℕ) (rule : WeightRule)
    (pledges : List (MemberId × ℕ)) (hdistinct : (pledges.map Prod.fst).Nodup)
    (item : CustodyItem) (m : MemberId) :
    (∀ x ∈ (new replicas rule pledges).custodians score sel item, x ≠ m →
      x ∈ (new replicas rule (pledges.filter fun entry => entry.1 ≠ m)).custodians score sel item) ∧
    (∀ (p : ℕ) (pledges' : List (MemberId × ℕ)), m ∉ pledges.map Prod.fst →
      pledges'.Perm ((m, p) :: pledges) →
      ∀ x ∈ (new replicas rule pledges).custodians score sel item,
        x ∉ (new replicas rule pledges').custodians score sel item →
        ((new replicas rule pledges).custodians score sel item).getLast? = some x ∧
          (m ∈ (new replicas rule pledges').custodians score sel item ∨
            (m ∈ item.creators ∧ (new replicas rule pledges').slots item + 1 =
              (new replicas rule pledges).slots item))) ∧
    ∀ p p' : ℕ, (m, p) ∈ pledges → p ≤ p' →
      (m ∈ (new replicas rule pledges).custodians score sel item →
        m ∈ (new replicas rule (withPledge pledges m p')).custodians score sel item) ∧
      ∀ x ∈ (new replicas rule pledges).custodians score sel item,
        x ∉ (new replicas rule (withPledge pledges m p')).custodians score sel item →
        ((new replicas rule pledges).custodians score sel item).getLast? = some x ∧
          m ∈ (new replicas rule (withPledge pledges m p')).custodians score sel item ∧
          m ∉ (new replicas rule pledges).custodians score sel item := by
  refine ⟨fun x hx hne => custodian_of_removed score sel hdistinct hx hne, ?_, ?_⟩
  · intro p pledges' hnew hperm x hbefore hlost
    exact displaced_by_added score sel hdistinct hnew hperm hbefore hlost
  · intro p p' hm hle
    exact ⟨custodian_of_raised score sel hscore hdistinct hm hle,
      fun x hbefore hlost => displaced_by_raised score sel hscore hdistinct hm hle hbefore hlost⟩

end Score

/-- Scored by weight alone, with one copy beside the creator's: member 1 raises
its pledge past member 2's, and member 2, the last custodian, is displaced. -/
theorem custody_minimal_disruption_raise :
    let score : ItemId → MemberId → ℕ → ℕ := fun _ _ weight => weight
    let rule : WeightRule := ⟨100, 1, 0⟩
    let pledges : List (MemberId × ℕ) := [(⟨1⟩, 5), (⟨2⟩, 7), (⟨3⟩, 50)]
    let item : CustodyItem := ⟨⟨0⟩, [⟨3⟩], 10⟩
    ⟨2⟩ ∈ (new 2 rule pledges).custodians score .sorting item ∧
      ⟨2⟩ ∉ (new 2 rule (withPledge pledges ⟨1⟩ 9)).custodians score .sorting item ∧
      ((new 2 rule pledges).custodians score .sorting item).getLast? = some ⟨2⟩ ∧
      ⟨1⟩ ∈ (new 2 rule (withPledge pledges ⟨1⟩ 9)).custodians score .sorting item := by
  intro score rule pledges item
  have hbefore : ⟨2⟩ ∈ (new 2 rule pledges).custodians score .sorting item := by decide +kernel
  have hlost : ⟨2⟩ ∉ (new 2 rule (withPledge pledges ⟨1⟩ 9)).custodians score .sorting item := by
    decide +kernel
  have hdisrupted := (custody_minimal_disruption score (fun _ _ _ _ hle => hle) .sorting 2 rule pledges
    (by decide) item ⟨1⟩).2.2 5 9 (by decide) (by decide)
  obtain ⟨hlast, hkept, -⟩ := hdisrupted.2 ⟨2⟩ hbefore hlost
  exact ⟨hbefore, hlost, hlast, hkept⟩

end CustodyGroup

end Distlib
