import Distlib.Consensus.Supersede
import Distlib.Consensus.GroupLog

/-!
# What becomes of a proposal

A proposal leaves the pending table when it is enacted, by the approval that decides it.
It leaves it as well when its proposer takes it back, when another change that is enacted
makes it stale, and when the entry that is applied is as far from it as the group's
expiry; that last sweep runs at the end of every successful entry, so it also takes the
proposal whose approval the very entry has just recorded. None of these says that the
change was made.

`Became` is that partition, for every log and every proposal accepted in it: it waits, it
was enacted, at an index no later than the last change, or it was dropped; and no two of
them. One entry more is one case analysis (`Step.stays_or_leaves`, `Became.concat`).
-/

namespace Distlib

open IndexedLog

namespace MembershipState

variable {s t u : MembershipState} {sig : Signing} {log pre : Log SignedEvent} {p i j : ℕ}
  {signed : SignedEvent} {entry : Proposal}

/-! ## Ways out of the table -/

/-- The event an entry decides, in the state it meets. -/
def decides (s : MembershipState) (proposer : MemberId) : MembershipEvent → Option MembershipEvent
  | .approved proposal =>
    match s.pending[proposal]? with
    | some entry =>
      if s.decided entry.event (insert proposer entry.approvals) then some entry.event else none
    | none => none
  | .withdrawn _ | .groupFounded _ _ _ => none
  | event => if s.decided event (s.firstApprovals proposer event) then some event else none

/-- The entry is the approval that decides the proposal. -/
def Carried (s : MembershipState) (proposer : MemberId) (payload : MembershipEvent) (p : ℕ)
    (entry : Proposal) : Prop :=
  payload = .approved p ∧ s.decided entry.event (insert proposer entry.approvals) = true

/-- Why an entry that does not carry a proposal takes it out of the table; `core` is the
core group after the entry. -/
inductive Leaves (s : MembershipState) (core : OrdMap MemberId NodeAddr) (index : ℕ)
    (proposer : MemberId) (payload : MembershipEvent) (p : ℕ) (entry : Proposal) : Prop
  | withdrawn (taken : payload = .withdrawn p)
  /-- another change is enacted, and the proposal does not stand after it -/
  | superseded {event : MembershipEvent} (decided : s.decides proposer payload = some event)
      (stale : standsAfter (subject event) s.core core entry = false)
  | expired (late : s.settings.pendingExpiry ≤ index - p)

/-- An accepted entry drops a proposal that waits. -/
def Drops (sig : Signing) (pre : Log SignedEvent) (index : ℕ) (signed : SignedEvent) (p : ℕ) :
    Prop :=
  ((fold sig pre).apply sig index signed).1 = .ok () ∧
    ∃ entry, (fold sig pre).pending[p]? = some entry ∧
      ¬(fold sig pre).Carried signed.proposer signed.payload p entry ∧
      (fold sig pre).Leaves (fold sig (pre ++ [(index, signed)])).core index signed.proposer
        signed.payload p entry

/-- An accepted entry puts what was proposed at `p` into effect: it is the submission
itself, decided as it arrives, or the approval that decides a proposal that waits. -/
def Enacts (sig : Signing) (pre : Log SignedEvent) (index : ℕ) (signed : SignedEvent) (p : ℕ) :
    Prop :=
  ∃ u, Succeeds sig pre index signed u ∧
    (p = index ∧
        (fold sig pre).decided signed.payload
          ((fold sig pre).firstApprovals signed.proposer signed.payload) = true ∧
        Enacted (fold sig pre) signed.payload u ∨
      ∃ entry, (fold sig pre).pending[p]? = some entry ∧
        (fold sig pre).Carried signed.proposer signed.payload p entry ∧
        Enacted { fold sig pre with pending := (fold sig pre).pending.erase p } entry.event u)

/-- What was proposed at `p` was put into effect by the entry at `index`. -/
def EnactedAt (sig : Signing) (log : Log SignedEvent) (p index : ℕ) : Prop :=
  Occurs (fun pre i signed => i = index ∧ Enacts sig pre i signed p) log

/-- Some entry dropped the proposal. -/
def DroppedIn (sig : Signing) (log : Log SignedEvent) (p : ℕ) : Prop :=
  Occurs (fun pre i signed => Drops sig pre i signed p) log

/-! ## One entry -/

/-- An enactment leaves the proposals that stand after it, and those only. -/
theorem Enacted.getElem?_pending {event : MembershipEvent} (h : Enacted s event t)
    (hp : s.pending[p]? = some entry) :
    t.pending[p]? = if standsAfter (subject event) s.core t.core entry then some entry else none := by
  obtain ⟨u, hu, rfl⟩ := h
  have hsame : u.pending[p]? = some entry := by rw [hu.frame.2.2, hp]
  split
  · exact OrdMap.getElem?_filter_eq_some.mpr ⟨hsame, ‹_›⟩
  · rename_i hstale
    rw [Option.eq_none_iff_forall_ne_some]
    intro found hfound
    obtain ⟨hget, hstands⟩ := OrdMap.getElem?_filter_eq_some.mp hfound
    obtain rfl := Option.some.inj (hsame.symm.trans hget)
    exact hstale hstands

/-- What is enacted as it is submitted is what the entry decides. -/
theorem Enacted.decides {event : MembershipEvent} {proposer : MemberId} (h : Enacted s event t)
    (hdecided : s.decided event (s.firstApprovals proposer event) = true) :
    s.decides proposer event = some event := by
  obtain ⟨u, hu, -⟩ := h
  cases hu <;> simp only [MembershipState.decides, hdecided, if_true]

theorem decides_of_undecided {event : MembershipEvent} {proposer : MemberId}
    (hproposable : (subject event).isSome)
    (hundecided : s.decided event (s.firstApprovals proposer event) = false) :
    s.decides proposer event = none := by
  cases event with
  | memberAdded | memberExpelled | coreGroupChanged | protocolRaised =>
    simp only [MembershipState.decides, hundecided, Bool.false_eq_true, if_false]
  | groupFounded | pledgeChanged | protocolSupported | approved | withdrawn => cases hproposable

/-- **One successful entry**, before its sweep: a proposal it does not carry stays, with
the same change, or it was withdrawn or made stale. -/
theorem Step.stays_or_leaves {proposer : MemberId} {payload : MembershipEvent}
    (h : Step s j proposer payload u) (hgroup : s.group.isSome) (hne : p ≠ j)
    (hp : s.pending[p]? = some entry) (hnot : ¬s.Carried proposer payload p entry) :
    ((∃ kept, u.pending[p]? = some kept) ∧ payload ≠ .withdrawn p ∧
        ∀ event ∈ s.decides proposer payload,
          standsAfter (subject event) s.core u.core entry = true) ∨
      (u.pending[p]? = none ∧ (payload = .withdrawn p ∨
        ∃ event ∈ s.decides proposer payload,
          standsAfter (subject event) s.core u.core entry = false)) := by
  have hstay : ∀ {pending : OrdMap ℕ Proposal} {q : ℕ} {other : Proposal}, p ≠ q →
      pending[p]? = some entry → (pending.insert q other)[p]? = some entry := by
    intro pending q other hother hget
    rw [Std.ExtTreeMap.getElem?_insert, if_neg, hget]
    exact fun hcmp => hother (Std.LawfulEqCmp.eq_of_compare hcmp).symm
  have herased : ∀ {q : ℕ}, p ≠ q → (s.pending.erase q)[p]? = some entry := by
    intro q hother
    rw [Std.ExtTreeMap.getElem?_erase, if_neg, hp]
    exact fun hcmp => hother (Std.LawfulEqCmp.eq_of_compare hcmp).symm
  cases h with
  | founded fresh checked =>
    rw [fresh] at hgroup
    cases hgroup
  | atOnce group member allowed decided enacted =>
    have hdecides := enacted.decides decided
    have hget := enacted.getElem?_pending hp
    split at hget
    · rename_i hstands
      refine Or.inl ⟨⟨entry, hget⟩, ?_, ?_⟩
      · rintro rfl
        cases hdecides
      · intro event hevent
        obtain rfl := Option.some.inj (hdecides.symm.trans hevent)
        exact hstands
    · rename_i hstale
      exact Or.inr ⟨hget, Or.inr ⟨_, hdecides, Bool.eq_false_iff.mpr hstale⟩⟩
  | waits group member allowed undecided proposable free =>
    have hdecides := decides_of_undecided proposable undecided
    refine Or.inl ⟨⟨entry, hstay hne hp⟩, ?_, ?_⟩
    · rintro rfl
      cases proposable
    · rw [hdecides]
      exact nofun
  | @agreed q old group core waiting allowed undecided =>
    have hdecides : s.decides proposer (.approved q) = none := by
      simp [decides, waiting, undecided]
    refine Or.inl ⟨?_, nofun, ?_⟩
    · by_cases hq : p = q
      · subst hq
        exact ⟨_, Std.ExtTreeMap.getElem?_insert_self⟩
      · exact ⟨entry, hstay hq (herased hq)⟩
    · rw [hdecides]
      exact nofun
  | @carried q old t group core waiting allowed decided enacted =>
    by_cases hq : p = q
    · subst hq
      obtain rfl := Option.some.inj (hp.symm.trans waiting)
      exact absurd ⟨rfl, decided⟩ hnot
    · have hdecides : s.decides proposer (.approved q) = some old.event := by
        simp [decides, waiting, decided]
      have hget := enacted.getElem?_pending (herased hq)
      split at hget
      · rename_i hstands
        refine Or.inl ⟨⟨entry, hget⟩, nofun, ?_⟩
        intro event hevent
        obtain rfl := Option.some.inj (hdecides.symm.trans hevent)
        exact hstands
      · rename_i hstale
        exact Or.inr ⟨hget, Or.inr ⟨_, hdecides, Bool.eq_false_iff.mpr hstale⟩⟩
  | @withdrawn q old group waiting own =>
    by_cases hq : p = q
    · subst hq
      exact Or.inr ⟨Std.ExtTreeMap.getElem?_erase_self, Or.inl rfl⟩
    · refine Or.inl ⟨⟨entry, herased hq⟩, ?_, nofun⟩
      rintro hwithdrawn
      exact hq (MembershipEvent.withdrawn.inj hwithdrawn).symm

/-! ## The partition -/

/-- What has become of the proposal at `p`, in every log that accepted it. -/
inductive Became (sig : Signing) (log : Log SignedEvent) (p : ℕ) : Prop
  | waiting {entry : Proposal} (held : (fold sig log).pending[p]? = some entry)
      (enacted : ∀ index, ¬EnactedAt sig log p index) (dropped : ¬DroppedIn sig log p)
  | enacted {index : ℕ} (gone : (fold sig log).pending[p]? = none)
      (past : index ≤ (fold sig log).changedAt) (enacted : EnactedAt sig log p index)
      (dropped : ¬DroppedIn sig log p)
  | dropped (gone : (fold sig log).pending[p]? = none)
      (enacted : ∀ index, ¬EnactedAt sig log p index) (dropped : DroppedIn sig log p)

/-- A proposal that waits was submitted below every index to come. -/
theorem pending_lt (hasc : Ascending (pre ++ [(i, signed)]))
    (hp : (fold sig pre).pending[p]? = some entry) : p < i := by
  obtain ⟨submission, haccepted, -⟩ := (provenance sig pre hasc.left p entry hp).1
  exact hasc.lt_last haccepted.mem

/-- What left the table never comes back, and nothing happens to it any more. -/
theorem gone_concat (sig : Signing) (signed : SignedEvent)
    (hgone : (fold sig pre).pending[p]? = none) (hne : p ≠ i) :
    (fold sig (pre ++ [(i, signed)])).pending[p]? = none ∧ ¬Enacts sig pre i signed p ∧
      ¬Drops sig pre i signed p := by
  refine ⟨?_, ?_, ?_⟩
  · rw [Option.eq_none_iff_forall_ne_some]
    intro entry hp
    rw [fold_concat] at hp
    rcases apply_cases sig (fold sig pre) i signed with hsame | ⟨-, -, -, u, hstep, hnext⟩
    · rw [hsame, hgone] at hp
      cases hp
    · rw [hnext] at hp
      rcases hstep.pending_cases (sweep_pending.mp hp).1 with hold | ⟨rfl, -⟩ | ⟨old, hold, -⟩
      · rw [hgone] at hold
        cases hold
      · exact hne rfl
      · rw [hgone] at hold
        cases hold
  · rintro ⟨u, -, ⟨rfl, -⟩ | ⟨entry, hp, -⟩⟩
    · exact hne rfl
    · rw [hgone] at hp
      cases hp
  · rintro ⟨-, entry, hp, -⟩
    rw [hgone] at hp
    cases hp

/-- The approval that decides a proposal puts it into effect, and only that. -/
theorem Succeeds.of_carried (h : Succeeds sig pre i signed u)
    (hp : (fold sig pre).pending[p]? = some entry)
    (hcarried : (fold sig pre).Carried signed.proposer signed.payload p entry) :
    (fold sig (pre ++ [(i, signed)])).pending[p]? = none ∧ Enacts sig pre i signed p ∧
      ¬Drops sig pre i signed p := by
  obtain ⟨happroved, hdecided⟩ := hcarried
  have henacted : Enacted { fold sig pre with pending := (fold sig pre).pending.erase p }
      entry.event u := by
    have hstep := h.step
    rw [happroved] at hstep
    cases hstep with
    | atOnce group member allowed decided enacted =>
      obtain ⟨t, ht, -⟩ := enacted
      cases ht
    | waits group member allowed undecided proposable free => cases proposable
    | agreed group core waiting allowed undecided =>
      obtain rfl := Option.some.inj (hp.symm.trans waiting)
      rw [hdecided] at undecided
      cases undecided
    | carried group core waiting allowed decided enacted =>
      obtain rfl := Option.some.inj (hp.symm.trans waiting)
      exact enacted
  refine ⟨?_, ⟨u, h, Or.inr ⟨entry, hp, ⟨happroved, hdecided⟩, henacted⟩⟩, ?_⟩
  · rw [Option.eq_none_iff_forall_ne_some, h.next]
    intro kept hkept
    have hold := (henacted.pending (sweep_pending.mp hkept).1).1
    rw [Std.ExtTreeMap.getElem?_erase_self] at hold
    cases hold
  · rintro ⟨-, other, hother, hnot, -⟩
    obtain rfl := Option.some.inj (hp.symm.trans hother)
    exact hnot ⟨happroved, hdecided⟩

/-- Any other successful entry puts the proposal into effect never; it leaves it waiting,
or drops it. -/
theorem Succeeds.of_not_carried (hasc : Ascending (pre ++ [(i, signed)]))
    (h : Succeeds sig pre i signed u) (hp : (fold sig pre).pending[p]? = some entry)
    (hnot : ¬(fold sig pre).Carried signed.proposer signed.payload p entry) :
    ¬Enacts sig pre i signed p ∧
      (((∃ kept, (fold sig (pre ++ [(i, signed)])).pending[p]? = some kept) ∧
          ¬Drops sig pre i signed p) ∨
        ((fold sig (pre ++ [(i, signed)])).pending[p]? = none ∧ Drops sig pre i signed p)) := by
  have hlt := pending_lt hasc hp
  have hgroup := founded_of_pending sig pre hasc.left p entry hp
  obtain ⟨g, hg⟩ := Option.isSome_iff_exists.mp hgroup
  have hsettings := (h.step.founded_stays hg).2
  have hcore : (fold sig (pre ++ [(i, signed)])).core = u.core := by
    rw [h.next]
    rfl
  refine ⟨?_, ?_⟩
  · rintro ⟨u', -, ⟨rfl, -⟩ | ⟨other, hother, hcarried, -⟩⟩
    · exact lt_irrefl _ hlt
    · obtain rfl := Option.some.inj (hp.symm.trans hother)
      exact hnot hcarried
  · rcases h.step.stays_or_leaves hgroup hlt.ne hp hnot with
      ⟨⟨kept, hkept⟩, hwithdrawn, hstands⟩ | ⟨hnone, hleaves⟩
    · by_cases hlate : ((fold sig pre).settings.pendingExpiry : ℕ) ≤ i - p
      · -- it stayed to the end of the entry, and is swept there
        refine Or.inr ⟨?_, h.ok, entry, hp, hnot, .expired hlate⟩
        rw [Option.eq_none_iff_forall_ne_some, h.next]
        intro swept hswept
        have hwithin := (sweep_pending.mp hswept).2
        rw [hsettings] at hwithin
        omega
      · refine Or.inl ⟨⟨kept, ?_⟩, ?_⟩
        · rw [h.next, sweep_pending, hsettings]
          exact ⟨hkept, not_le.mp hlate⟩
        · rintro ⟨-, other, hother, -, hleaves⟩
          obtain rfl := Option.some.inj (hp.symm.trans hother)
          cases hleaves with
          | withdrawn taken => exact hwithdrawn taken
          | superseded decided stale =>
            rw [hcore, hstands _ decided] at stale
            cases stale
          | expired late => exact hlate late
    · refine Or.inr ⟨?_, h.ok, entry, hp, hnot, ?_⟩
      · rw [Option.eq_none_iff_forall_ne_some, h.next]
        intro kept hkept
        have hget := (sweep_pending.mp hkept).1
        rw [hnone] at hget
        cases hget
      · rcases hleaves with htaken | ⟨event, hdecides, hstale⟩
        · exact .withdrawn htaken
        · rw [← hcore] at hstale
          exact .superseded hdecides hstale

/-- **One entry more.** -/
theorem Became.concat (hasc : Ascending (pre ++ [(i, signed)])) (hlt : p < i)
    (h : Became sig pre p) : Became sig (pre ++ [(i, signed)]) p := by
  have henacted : ∀ j, EnactedAt sig (pre ++ [(i, signed)]) p j ↔
      EnactedAt sig pre p j ∨ (i = j ∧ Enacts sig pre i signed p) := fun j => occurs_concat
  have hdropped : DroppedIn sig (pre ++ [(i, signed)]) p ↔
      DroppedIn sig pre p ∨ Drops sig pre i signed p := occurs_concat
  cases h with
  | @waiting entry held enacted dropped =>
    rcases happly : ((fold sig pre).apply sig i signed).1 with error | ⟨⟩
    · -- a refused entry changes nothing
      have hheld : (fold sig (pre ++ [(i, signed)])).pending[p]? = some entry := by
        rw [fold_concat, apply_atomic sig _ i signed error happly, held]
      refine .waiting hheld ?_ ?_
      · intro j
        rw [henacted, not_or]
        refine ⟨enacted j, ?_⟩
        rintro ⟨-, u, hu, -⟩
        rw [hu.ok] at happly
        cases happly
      · rw [hdropped, not_or]
        refine ⟨dropped, ?_⟩
        rintro ⟨hok, -⟩
        rw [hok] at happly
        cases happly
    · obtain ⟨u, hu⟩ := succeeds_of_apply happly
      by_cases hcarried : (fold sig pre).Carried signed.proposer signed.payload p entry
      · obtain ⟨hgone, henacts, hnot⟩ := hu.of_carried held hcarried
        refine .enacted hgone ?_ ((henacted i).mpr (Or.inr ⟨rfl, henacts⟩)) ?_
        · rw [hu.next]
          exact le_rfl
        · rw [hdropped, not_or]
          exact ⟨dropped, hnot⟩
      · obtain ⟨hnot, ⟨⟨kept, hkept⟩, hstays⟩ | ⟨hgone, hdrops⟩⟩ :=
          hu.of_not_carried hasc held hcarried
        · refine .waiting hkept ?_ ?_
          · intro j
            rw [henacted, not_or]
            exact ⟨enacted j, fun h => hnot h.2⟩
          · rw [hdropped, not_or]
            exact ⟨dropped, hstays⟩
        · refine .dropped hgone ?_ (hdropped.mpr (Or.inr hdrops))
          intro j
          rw [henacted, not_or]
          exact ⟨enacted j, fun h => hnot h.2⟩
  | @enacted index gone past enacted dropped =>
    obtain ⟨hgone, -, hnot⟩ := gone_concat sig signed gone hlt.ne
    refine .enacted hgone ?_ ((henacted index).mpr (Or.inl enacted)) ?_
    · exact past.trans (changedAt_fold_le sig pre [(i, signed)] hasc)
    · rw [hdropped, not_or]
      exact ⟨dropped, hnot⟩
  | dropped gone enacted dropped =>
    obtain ⟨hgone, hnot, -⟩ := gone_concat sig signed gone hlt.ne
    refine .dropped hgone ?_ (hdropped.mpr (Or.inl dropped))
    intro j
    rw [henacted, not_or]
    exact ⟨enacted j, fun h => hnot h.2⟩

/-- Before its submission, nothing happens to a proposal. -/
theorem nothing_before (sig : Signing) (hasc : Ascending (pre ++ [(p, signed)])) :
    (fold sig pre).pending[p]? = none ∧ (∀ j, ¬EnactedAt sig pre p j) ∧ ¬DroppedIn sig pre p := by
  have hnone : ∀ {init post : Log SignedEvent}, pre = init ++ post →
      (fold sig init).pending[p]? = none := by
    rintro init post rfl
    rw [Option.eq_none_iff_forall_ne_some]
    intro entry hp
    obtain ⟨submission, haccepted, -⟩ := (provenance sig init hasc.left.left p entry hp).1
    exact lt_irrefl p (hasc.lt_last (List.mem_append_left post haccepted.mem))
  refine ⟨hnone (List.append_nil pre).symm, ?_, ?_⟩
  · rintro j ⟨init, index, other, post, hsplit, -, u, -, ⟨rfl, -⟩ | ⟨entry, hp, -⟩⟩
    · exact lt_irrefl p (hasc.lt_last (hsplit ▸ List.mem_append_right init List.mem_cons_self))
    · rw [hnone hsplit] at hp
      cases hp
  · rintro ⟨init, index, other, post, hsplit, -, entry, hp, -⟩
    rw [hnone hsplit] at hp
    cases hp

/-- **The submission itself**: it is enacted as it arrives, or it waits. -/
theorem Became.submitted (hasc : Ascending (pre ++ [(p, signed)]))
    (hproposable : Proposable signed.payload) (hu : Succeeds sig pre p signed u) :
    Became sig (pre ++ [(p, signed)]) p := by
  obtain ⟨hnone, hnever, hundropped⟩ := nothing_before sig hasc
  have hdropped : ¬DroppedIn sig (pre ++ [(p, signed)]) p := by
    intro hdropped
    rcases occurs_concat.mp hdropped with hold | ⟨-, entry, hp, -⟩
    · exact hundropped hold
    · rw [hnone] at hp
      cases hp
  have hstep := hu.step
  have hnext := hu.next
  generalize hpayload : signed.payload = payload at hstep hproposable
  cases hstep with
  | founded fresh checked => cases hproposable
  | agreed group core waiting allowed undecided => cases hproposable
  | carried group core waiting allowed decided enacted => cases hproposable
  | withdrawn group waiting own => cases hproposable
  | atOnce group member allowed decided enacted =>
    subst hpayload
    refine .enacted ?_ ?_ (occurs_concat.mpr (Or.inr ⟨rfl, u, hu, Or.inl ⟨rfl, decided, enacted⟩⟩))
      hdropped
    · rw [Option.eq_none_iff_forall_ne_some, hnext]
      intro entry hp
      have hold := (enacted.pending (sweep_pending.mp hp).1).1
      rw [hnone] at hold
      cases hold
    · rw [hnext]
      exact le_rfl
  | waits group member allowed undecided proposable free =>
    subst hpayload
    have hheld : (fold sig (pre ++ [(p, signed)])).pending[p]? =
        some ⟨signed.payload, signed.proposer,
          (fold sig pre).firstApprovals signed.proposer signed.payload⟩ := by
      rw [hnext, sweep_pending]
      refine ⟨Std.ExtTreeMap.getElem?_insert_self, ?_⟩
      rw [Nat.sub_self]
      exact (fold sig pre).settings.pendingExpiry.pos
    refine .waiting hheld ?_ hdropped
    intro j henacted
    rcases occurs_concat.mp henacted with hold | ⟨-, t, -, ⟨-, hdecided, -⟩ | ⟨entry, hp, -⟩⟩
    · exact hnever j hold
    · rw [undecided] at hdecided
      cases hdecided
    · rw [hnone] at hp
      cases hp

/-- **What becomes of every proposal of every log.** -/
theorem became (sig : Signing) (log : Log SignedEvent) (hasc : Ascending log)
    (event : MembershipEvent) (hproposable : Proposable event)
    (hsubmitted : SubmittedAt sig log p event) : Became sig log p := by
  obtain ⟨submission, ⟨pre, post, rfl, hok⟩, rfl⟩ := hsubmitted
  induction post using List.reverseRecOn with
  | nil =>
    obtain ⟨u, hu⟩ := succeeds_of_apply hok
    exact .submitted hasc hproposable hu
  | append_singleton post entry ih =>
    obtain ⟨i, signed⟩ := entry
    rw [← List.cons_append, ← List.append_assoc] at hasc ⊢
    refine (ih hasc.left).concat hasc ?_
    exact hasc.lt_last (List.mem_append_right pre List.mem_cons_self)

/-! ## Read at a moment -/

theorem submittedAt_iff_occurs {event : MembershipEvent} :
    SubmittedAt sig log p event ↔
      Occurs (fun pre i signed => i = p ∧ ((fold sig pre).apply sig i signed).1 = .ok () ∧
        signed.payload = event) log := by
  constructor
  · rintro ⟨signed, ⟨pre, post, hsplit, hok⟩, hpayload⟩
    exact ⟨pre, p, signed, post, hsplit, rfl, hok, hpayload⟩
  · rintro ⟨pre, i, signed, post, hsplit, rfl, hok, hpayload⟩
    exact ⟨signed, ⟨pre, post, hsplit, hok⟩, hpayload⟩

theorem SubmittedAt.exists_mem {event : MembershipEvent} (h : SubmittedAt sig log p event) :
    ∃ signed, (p, signed) ∈ log := by
  obtain ⟨signed, haccepted, -⟩ := h
  exact ⟨signed, haccepted.mem⟩

/-- What an approval names was submitted before it, and can wait. -/
theorem SubmittedAt.of_approved (hasc : Ascending log)
    (h : SubmittedAt sig log j (.approved p)) :
    ∃ event, Proposable event ∧ SubmittedAt sig log p event := by
  obtain ⟨signed, ⟨pre, post, rfl, hok⟩, hpayload⟩ := h
  obtain ⟨u, hu⟩ := succeeds_of_apply hok
  have hstep := hu.step
  rw [hpayload] at hstep
  have hwaits : ∃ entry, (fold sig pre).pending[p]? = some entry := by
    cases hstep with
    | atOnce group member allowed decided enacted =>
      obtain ⟨t, ht, -⟩ := enacted
      cases ht
    | waits group member allowed undecided proposable free => cases proposable
    | agreed group core waiting allowed undecided => exact ⟨_, waiting⟩
    | carried group core waiting allowed decided enacted => exact ⟨_, waiting⟩
  obtain ⟨entry, hp⟩ := hwaits
  exact ⟨entry.event, proposable_of_subject ((tidy_fold sig pre hasc.left).proposable p entry hp),
    (provenance sig pre hasc.left p entry hp).1.append _⟩

/-- An enactment is of a proposal of the log. -/
theorem EnactedAt.exists_mem (hasc : Ascending log) (h : EnactedAt sig log p i) :
    ∃ signed, (p, signed) ∈ log := by
  obtain ⟨pre, index, signed, post, rfl, -, u, -, ⟨rfl, -⟩ | ⟨entry, hp, -⟩⟩ := h
  · exact ⟨signed, List.mem_append_right pre List.mem_cons_self⟩
  · obtain ⟨submission, hmem⟩ := (provenance sig pre hasc.left p entry hp).1.exists_mem
    exact ⟨submission, List.mem_append_left _ hmem⟩

end MembershipState

namespace GroupLog

open MembershipState

variable {sig : Signing} {log : GroupLog} {p i : ℕ}

/-- What is enacted no later than the last change a reader knows of, it has read. -/
theorem enactedAt_take {count : ℕ} (h : EnactedAt sig log.entries p i)
    (hpast : i ≤ ((log.take count).membership sig).changedAt) :
    EnactedAt sig (log.take count).entries p i := by
  have hsplit : log.entries = (log.take count).entries ++ log.entries.drop count :=
    (List.take_append_drop count log.entries).symm
  have hasc := log.ascending
  rw [hsplit] at hasc
  rw [hsplit] at h
  refine (occurs_append.mp h).resolve_right ?_
  intro hlater
  obtain ⟨-, index, signed, hmem, rfl, -⟩ := hlater.exists_mem
  rcases changedAt_mem sig (log.take count).entries (log.take count).ascending with
    hzero | ⟨last, hlast⟩
  · have hpositive := log.positive _ (List.mem_of_mem_drop hmem)
    rw [membership, hzero] at hpast
    exact absurd hpositive (not_lt.mpr hpast)
  · exact absurd (hasc.lt_of_mem hlast hmem) (not_lt.mpr hpast)

/-- What was submitted at an index a reader has read of, it has read. -/
theorem submittedAt_take {count : ℕ} {event : MembershipEvent} {signed : SignedEvent}
    (h : SubmittedAt sig log.entries p event) (hread : (p, signed) ∈ (log.take count).entries) :
    SubmittedAt sig (log.take count).entries p event := by
  have hsplit : log.entries = (log.take count).entries ++ log.entries.drop count :=
    (List.take_append_drop count log.entries).symm
  have hasc := log.ascending
  rw [hsplit] at hasc
  rw [hsplit, submittedAt_iff_occurs] at h
  rw [submittedAt_iff_occurs]
  refine (occurs_append.mp h).resolve_right ?_
  intro hlater
  obtain ⟨-, index, submission, hmem, rfl, -⟩ := hlater.exists_mem
  have hlt := hasc.lt_of_mem hread hmem
  exact absurd hlt (lt_irrefl index)

/-- **Absence, read as effect.** That a proposal is not among those that wait means that it
was enacted, no later than the last change read, exactly where the reader has come as far as
the proposal and no entry up to there has dropped it. -/
theorem enacted_of_absent_iff {event : MembershipEvent} (count : ℕ) (hproposable : Proposable event)
    (hsubmitted : SubmittedAt sig log.entries p event) :
    (((log.take count).membership sig).pending[p]? = none →
        ∃ index ≤ ((log.take count).membership sig).changedAt,
          EnactedAt sig log.entries p index) ↔
      (∃ signed, (p, signed) ∈ (log.take count).entries) ∧
        ¬DroppedIn sig (log.take count).entries p := by
  have hasc := (log.take count).ascending
  constructor
  · intro happlied
    by_cases hread : ∃ signed, (p, signed) ∈ (log.take count).entries
    · refine ⟨hread, ?_⟩
      obtain ⟨signed, hmem⟩ := hread
      cases became sig _ hasc event hproposable (submittedAt_take hsubmitted hmem) with
      | waiting held enacted dropped => exact dropped
      | enacted gone past enacted dropped => exact dropped
      | dropped gone enacted dropped =>
        obtain ⟨index, hpast, hlater⟩ := happlied gone
        exact absurd (enactedAt_take hlater hpast) (enacted index)
    · -- a reader that is behind the proposal sees nothing that waits there
      have hnone : ((log.take count).membership sig).pending[p]? = none := by
        rw [Option.eq_none_iff_forall_ne_some]
        intro entry hp
        exact hread (provenance sig _ hasc p entry hp).1.exists_mem
      obtain ⟨index, hpast, hlater⟩ := happlied hnone
      exact absurd ((enactedAt_take hlater hpast).exists_mem hasc) hread
  · rintro ⟨⟨signed, hmem⟩, hkept⟩ hnone
    cases became sig _ hasc event hproposable (submittedAt_take hsubmitted hmem) with
    | waiting held enacted dropped =>
      rw [membership, held] at hnone
      cases hnone
    | @enacted index gone past enacted dropped =>
      refine ⟨index, past, ?_⟩
      rw [← List.take_append_drop count log.entries]
      exact occurs_append.mpr (Or.inl enacted)
    | dropped gone enacted dropped => exact absurd dropped hkept

end GroupLog

end Distlib
