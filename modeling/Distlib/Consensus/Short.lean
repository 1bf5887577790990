import Distlib.Consensus.Supersede

/-!
# What a waiting proposal is short of

Both sides of the threshold are measured against the core as it stands: how many approvals
a proposal needs, and which of those it holds still count. The core moves while a proposal
waits, and nothing looks at a waiting proposal again until somebody approves it, so that
one change of the core cannot decide several of them at once. An approval that is repeated
does.

So a waiting proposal was short when it was last looked at, and is short as long as the
core has the members it had then (`short_since_examined`). After that it can wait with
enough (`dave_waits_with_enough`).
-/

namespace Distlib

open IndexedLog

namespace MembershipState

variable {s t u : MembershipState} {sig : Signing}

/-- The approvals on a proposal that count are fewer than it needs. -/
def Short (s : MembershipState) (entry : Proposal) : Prop :=
  (s.counting entry.approvals).card < s.approvalsNeeded entry.event

instance (s : MembershipState) (entry : Proposal) : Decidable (s.Short entry) :=
  inferInstanceAs (Decidable ((s.counting entry.approvals).card < s.approvalsNeeded entry.event))

theorem short_of_undecided {entry : Proposal} (h : s.decided entry.event entry.approvals = false) :
    s.Short entry := by
  rw [decided, decide_eq_false_iff_not, not_le] at h
  exact h

/-! ## Who the core is decides it all -/

theorem contains_core_congr (h : OrdMap.keySet s.core = OrdMap.keySet t.core) (member : MemberId) :
    s.core.contains member = t.core.contains member := by
  rw [Bool.eq_iff_iff, ← Std.ExtTreeMap.mem_iff_contains, ← Std.ExtTreeMap.mem_iff_contains,
    ← OrdMap.mem_keySet, h, OrdMap.mem_keySet]

theorem counting_congr (h : OrdMap.keySet s.core = OrdMap.keySet t.core)
    (approvals : Finset MemberId) : s.counting approvals = t.counting approvals := by
  refine Finset.filter_congr ?_
  intro member _
  rw [isCore, isCore, contains_core_congr h]

theorem approvalsNeeded_congr (h : OrdMap.keySet s.core = OrdMap.keySet t.core)
    (event : MembershipEvent) : s.approvalsNeeded event = t.approvalsNeeded event := by
  have hsize : s.core.size = t.core.size := by
    rw [← OrdMap.card_keySet, h, OrdMap.card_keySet]
  have hchanges : s.changesTheVoters event = t.changesTheVoters event := by
    cases event with
    | memberExpelled member reason => exact contains_core_congr h member
    | coreGroupChanged core => simp only [changesTheVoters, hsize, contains_core_congr h]
    | _ => rfl
  cases event <;> simp only [approvalsNeeded, hsize, hchanges]

/-- Where the core has the same members, the same proposals are short. -/
theorem Short.congr {entry : Proposal} (hshort : s.Short entry)
    (h : OrdMap.keySet t.core = OrdMap.keySet s.core) : t.Short entry := by
  rw [Short, counting_congr h, approvalsNeeded_congr h]
  exact hshort

/-! ## When a proposal is looked at -/

/-- The entry is the submission of the proposal at `p`, or an approval of it. -/
def Names (index : ℕ) (payload : MembershipEvent) (p : ℕ) (entry : Proposal) : Prop :=
  index = p ∧ payload = entry.event ∨ payload = .approved p

/-- **One successful entry**, before its sweep: it leaves a waiting proposal as it was, or
it is the one that has looked at it and found it short. -/
theorem Step.examined {index p : ℕ} {proposer : MemberId} {payload : MembershipEvent}
    {entry : Proposal} (h : Step s index proposer payload u) (hp : u.pending[p]? = some entry) :
    (s.pending[p]? = some entry ∧ payload ≠ .approved p) ∨
      (Names index payload p entry ∧ u.Short entry) := by
  cases h with
  | founded fresh checked => exact Or.inl ⟨hp, nofun⟩
  | atOnce group member allowed decided enacted =>
    refine Or.inl ⟨(enacted.pending hp).1, ?_⟩
    rintro rfl
    obtain ⟨t, ht, -⟩ := enacted
    cases ht
  | waits group member allowed undecided proposable free =>
    simp only [Std.ExtTreeMap.getElem?_insert, Std.LawfulEqCmp.compare_eq_iff_eq] at hp
    split at hp
    · rename_i hsame
      obtain rfl := Option.some.inj hp
      exact Or.inr ⟨Or.inl ⟨hsame, rfl⟩, short_of_undecided (s := s) undecided⟩
    · refine Or.inl ⟨hp, ?_⟩
      rintro rfl
      cases proposable
  | @agreed q old group core waiting allowed undecided =>
    simp only [Std.ExtTreeMap.getElem?_insert, Std.LawfulEqCmp.compare_eq_iff_eq,
      Std.ExtTreeMap.getElem?_erase] at hp
    split at hp
    · rename_i hsame
      subst hsame
      obtain rfl := Option.some.inj hp
      exact Or.inr ⟨Or.inr rfl, short_of_undecided (s := s) undecided⟩
    · rename_i hother
      exact Or.inl ⟨hp, fun heq => hother (MembershipEvent.approved.inj heq)⟩
  | @carried q old t group core waiting allowed decided enacted =>
    have hget := (enacted.pending hp).1
    simp only [Std.ExtTreeMap.getElem?_erase, Std.LawfulEqCmp.compare_eq_iff_eq] at hget
    split at hget
    · cases hget
    · rename_i hother
      exact Or.inl ⟨hget, fun heq => hother (MembershipEvent.approved.inj heq)⟩
  | withdrawn group waiting own =>
    simp only [Std.ExtTreeMap.getElem?_erase, Std.LawfulEqCmp.compare_eq_iff_eq] at hp
    split at hp
    · cases hp
    · exact Or.inl ⟨hp, nofun⟩

/-- Of the entries of the log, the one between `pre` and `post` is the last that was
accepted and looked at the proposal: it found it short and left it as it is. -/
structure LastExamined (sig : Signing) (log : Log SignedEvent) (p : ℕ) (entry : Proposal)
    (pre : Log SignedEvent) (i : ℕ) (signed : SignedEvent) (post : Log SignedEvent) : Prop where
  split : log = pre ++ (i, signed) :: post
  accepted : ((fold sig pre).apply sig i signed).1 = .ok ()
  names : Names i signed.payload p entry
  waiting : (fold sig (pre ++ [(i, signed)])).pending[p]? = some entry
  short : (fold sig (pre ++ [(i, signed)])).Short entry
  last : ∀ since j other rest, post = since ++ (j, other) :: rest →
    ((fold sig (pre ++ (i, signed) :: since)).apply sig j other).1 = .ok () →
      other.payload ≠ .approved p

/-- An entry that is refused, or is no approval of the proposal, leaves it as last looked at. -/
theorem LastExamined.concat {log pre post : Log SignedEvent} {i j p : ℕ}
    {signed other : SignedEvent} {entry : Proposal}
    (h : LastExamined sig log p entry pre i signed post)
    (hother : ((fold sig log).apply sig j other).1 = .ok () → other.payload ≠ .approved p) :
    LastExamined sig (log ++ [(j, other)]) p entry pre i signed (post ++ [(j, other)]) where
  split := by rw [h.split, List.append_assoc, List.cons_append]
  accepted := h.accepted
  names := h.names
  waiting := h.waiting
  short := h.short
  last := by
    intro since k later rest hsplit hok
    rcases List.eq_nil_or_concat rest with rfl | ⟨mid, last, rfl⟩
    · obtain ⟨rfl, hlast⟩ := List.append_inj' hsplit rfl
      obtain ⟨rfl, rfl⟩ := Prod.mk.inj (List.singleton_inj.mp hlast)
      rw [← h.split] at hok
      exact hother hok
    · rw [List.concat_eq_append, ← List.cons_append, ← List.append_assoc] at hsplit
      obtain ⟨rfl, -⟩ := List.append_inj' hsplit rfl
      exact h.last since k later mid rfl hok

/-- Every proposal that waits was looked at, and found short. -/
theorem exists_lastExamined (sig : Signing) (log : Log SignedEvent) :
    ∀ (p : ℕ) (entry : Proposal), (fold sig log).pending[p]? = some entry →
      ∃ pre i signed post, LastExamined sig log p entry pre i signed post := by
  induction log using List.reverseRecOn with
  | nil =>
    intro p entry hp
    change new.pending[p]? = some entry at hp
    simp [new] at hp
  | append_singleton log last ih =>
    obtain ⟨j, other⟩ := last
    intro p entry hp
    rcases happly : ((fold sig log).apply sig j other).1 with error | ⟨⟩
    · -- a refused entry looks at nothing
      rw [fold_concat, apply_atomic sig _ j other error happly] at hp
      obtain ⟨pre, i, signed, post, hlast⟩ := ih p entry hp
      refine ⟨pre, i, signed, post ++ [(j, other)], hlast.concat ?_⟩
      intro hok
      rw [hok] at happly
      cases happly
    · obtain ⟨u, hu⟩ := succeeds_of_apply happly
      have hwaits : u.pending[p]? = some entry := by
        rw [hu.next] at hp
        exact (sweep_pending.mp hp).1
      rcases hu.step.examined hwaits with ⟨hold, hother⟩ | ⟨hnames, hshort⟩
      · obtain ⟨pre, i, signed, post, hlast⟩ := ih p entry hold
        exact ⟨pre, i, signed, post ++ [(j, other)], hlast.concat fun _ => hother⟩
      · refine ⟨log, j, other, [], rfl, happly, hnames, hp, ?_, ?_⟩
        · rw [hu.next]
          exact hshort
        · intro since k later rest hnil
          cases since <;> cases hnil

/-- **A waiting proposal was short when it was last looked at**, in every reachable state:
at its submission, or at the last approval of it that was accepted. It has been short ever
since in every state whose core has the members it had then. And whatever the core has
become by now, one more approval that is accepted does not leave it waiting with enough. -/
theorem short_since_examined (sig : Signing) (log : Log SignedEvent) (p : ℕ) (entry : Proposal)
    (hwaiting : (fold sig log).pending[p]? = some entry) :
    (∃ pre i signed post, LastExamined sig log p entry pre i signed post ∧
      ∀ since rest, post = since ++ rest →
        OrdMap.keySet (fold sig (pre ++ (i, signed) :: since)).core =
            OrdMap.keySet (fold sig (pre ++ [(i, signed)])).core →
          (fold sig (pre ++ (i, signed) :: since)).Short entry) ∧
      ∀ j other, other.payload = .approved p → ((fold sig log).apply sig j other).1 = .ok () →
        ∀ kept, (fold sig (log ++ [(j, other)])).pending[p]? = some kept →
          (fold sig (log ++ [(j, other)])).Short kept := by
  refine ⟨?_, ?_⟩
  · obtain ⟨pre, i, signed, post, hlast⟩ := exists_lastExamined sig log p entry hwaiting
    refine ⟨pre, i, signed, post, hlast, ?_⟩
    intro since rest _ hsame
    exact hlast.short.congr hsame
  · intro j other happroves hok kept hkept
    obtain ⟨u, hu⟩ := succeeds_of_apply hok
    rw [hu.next] at hkept ⊢
    rcases hu.step.examined (sweep_pending.mp hkept).1 with ⟨-, hother⟩ | ⟨-, hshort⟩
    · exact absurd happroves hother
    · exact hshort

/-! ## A core that shrinks -/

namespace Sample

/-- Of four founders two want dave expelled, which takes three; then the core becomes one of
three. -/
def carolDemoted : Log SignedEvent :=
  [(1, .signedBy alice 0 (.groupFounded ⟨9⟩
      [(⟨alice, "alice"⟩, default), (⟨bob, "bob"⟩, default), (⟨carol, "carol"⟩, default),
        (⟨dave, "dave"⟩, default)] default)),
   (2, .signedBy alice 1 (.memberExpelled dave "gone")),
   (3, .signedBy bob 2 (.approved 2)),
   (4, .signedBy alice 3 (.coreGroupChanged [(alice, default), (bob, default), (dave, default)])),
   (5, .signedBy bob 4 (.approved 4)),
   (6, .signedBy carol 5 (.approved 4))]

def daveExpelled : Proposal := ⟨.memberExpelled dave "gone", alice, {bob, alice}⟩

/-- **Dave's expulsion waits with enough**: two of two. -/
theorem dave_waits_with_enough :
    Ascending carolDemoted ∧ (fold .accepting carolDemoted).group.isSome ∧
      (fold .accepting carolDemoted).pending[2]? = some daveExpelled ∧
      ((fold .accepting carolDemoted).counting daveExpelled.approvals).card = 2 ∧
      (fold .accepting carolDemoted).approvalsNeeded daveExpelled.event = 2 ∧
      ¬∀ (p : ℕ) (entry : Proposal), (fold .accepting carolDemoted).pending[p]? = some entry →
        ((fold .accepting carolDemoted).counting entry.approvals).card <
          (fold .accepting carolDemoted).approvalsNeeded entry.event := by
  have hwaiting : (fold .accepting carolDemoted).pending[2]? = some daveExpelled := by decide +kernel
  refine ⟨by decide, by decide +kernel, hwaiting, by decide +kernel, by decide +kernel, ?_⟩
  intro hall
  exact absurd (hall 2 daveExpelled hwaiting) (by decide +kernel)

/-- It was short as bob approved it, of a core of four. -/
theorem dave_was_short :
    ∃ pre i signed post, LastExamined .accepting carolDemoted 2 daveExpelled pre i signed post ∧
      ∀ since rest, post = since ++ rest →
        OrdMap.keySet (fold .accepting (pre ++ (i, signed) :: since)).core =
            OrdMap.keySet (fold .accepting (pre ++ [(i, signed)])).core →
          (fold .accepting (pre ++ (i, signed) :: since)).Short daveExpelled :=
  (short_since_examined .accepting carolDemoted 2 daveExpelled (by decide +kernel)).1

end Sample

end MembershipState

end Distlib
