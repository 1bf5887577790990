import Distlib.Consensus.Pending
import Distlib.Consensus.Supersede
import Distlib.Lib.GuardedRun

/-!
# How long a proposal is said to wait

An operator is told of each waiting proposal how many more changes to the group it
waits through. The number is made from indices of the log: the expiry, less how far the
last change is past the proposal. But the log has indices that are no changes, of entries
that were refused and of entries that carry no event, and the sweep counts those too.

So the number is never too small: the change after the last one promised always sweeps
(`swept_by_the_next`). It is too large as soon as something other than a change has an
index among the promised ones, and only then (`count_kept_iff`).
-/

namespace Distlib

open IndexedLog GuardedRun

namespace MembershipState

/-- How many further changes the proposal at `proposal` is said to wait through. -/
def expiresAfter (s : MembershipState) (proposal : ℕ) : ℕ :=
  s.settings.pendingExpiry - (s.changedAt - proposal + 1)

/-- The state after one more entry, refused or not. -/
def next (sig : Signing) (s : MembershipState) (entry : ℕ × SignedEvent) : MembershipState :=
  (s.apply sig entry.1 entry.2).2

/-- The indices of those entries of a log that change the group, from `s` on. -/
def changes (sig : Signing) : MembershipState → Log SignedEvent → List ℕ
  | _, [] => []
  | s, (index, signed) :: rest =>
    match s.apply sig index signed with
    | (.ok (), s) => index :: changes sig s rest
    | (.error _, s) => changes sig s rest

/-- The entry neither enacts nor withdraws the proposal at `proposal`, nor enacts what
supersedes it: after all an entry does but the sweep, it still waits if it did. -/
def Spares (sig : Signing) (proposal : ℕ) (s : MembershipState) (entry : ℕ × SignedEvent) : Prop :=
  (s.apply sig entry.1 entry.2).1 = .ok () → s.pending.contains proposal →
    (s.dispatch entry.1 entry.2.proposer entry.2.payload).2.pending.contains proposal

instance (sig : Signing) (proposal : ℕ) (s : MembershipState) (entry : ℕ × SignedEvent) :
    Decidable (Spares sig proposal s entry) :=
  inferInstanceAs (Decidable ((s.apply sig entry.1 entry.2).1 = .ok () → s.pending.contains proposal →
    (s.dispatch entry.1 entry.2.proposer entry.2.payload).2.pending.contains proposal))

/-- A log that leaves the proposal to the sweep, from `s` on. -/
def LeftAlone (sig : Signing) (proposal : ℕ) (s : MembershipState) (log : Log SignedEvent) : Prop :=
  Along (next sig) (Spares sig proposal) s log

/-- What the operator is told holds of a continuation of the log: the proposal waits
after as many further changes as it is said to, and not after one more. -/
def CountKept (sig : Signing) (log : Log SignedEvent) (proposal : ℕ) (post : Log SignedEvent) :
    Prop :=
  ∀ before after, post = before ++ after →
    ((changes sig (fold sig log) before).length = (fold sig log).expiresAfter proposal →
      (fold sig (log ++ before)).pending.contains proposal) ∧
    ((changes sig (fold sig log) before).length = (fold sig log).expiresAfter proposal + 1 →
      ¬(fold sig (log ++ before)).pending.contains proposal)

variable {sig : Signing} {s u : MembershipState} {p : ℕ} {log pre post : Log SignedEvent}

/-! ## One entry -/

theorem apply_ok_eq {index : ℕ} {signed : SignedEvent} (h : (s.apply sig index signed).1 = .ok ()) :
    (s.apply sig index signed).2 =
      (s.dispatch index signed.proposer signed.payload).2.sweep index := by
  rw [apply] at h ⊢
  rcases hevent : signed.event sig with error | event
  · rw [hevent] at h
    cases h
  · obtain ⟨-, rfl⟩ := SignedEvent.event_eq_ok hevent
    rw [hevent] at h
    dsimp only at h ⊢
    split
    · rename_i hstale
      rw [if_pos hstale] at h
      cases h
    · rename_i hcurrent
      rw [if_neg hcurrent] at h
      rcases hdispatch : s.dispatch index signed.proposer signed.payload with ⟨error | _, t⟩
      · rw [hdispatch] at h
        cases h
      · rfl

theorem settings_of_apply_ok {index : ℕ} {signed : SignedEvent}
    (hok : (s.apply sig index signed).1 = .ok ()) (hgroup : s.group.isSome) :
    (s.apply sig index signed).2.group.isSome ∧
      (s.apply sig index signed).2.settings = s.settings := by
  obtain ⟨group, hsome⟩ := Option.isSome_iff_exists.mp hgroup
  rcases happly : s.apply sig index signed with ⟨verdict, t⟩
  rw [happly] at hok
  obtain rfl : verdict = .ok () := hok
  obtain ⟨-, -, u, hstep, rfl⟩ := step_of_apply happly
  obtain ⟨hgroup', hsettings⟩ := hstep.founded_stays hsome
  exact ⟨Option.isSome_iff_exists.mpr ⟨group, hgroup'⟩, hsettings⟩

/-- A change that spares a waiting proposal sweeps it by its index alone. -/
theorem contains_of_spared {index : ℕ} {signed : SignedEvent}
    (hok : (s.apply sig index signed).1 = .ok ()) (hgroup : s.group.isSome)
    (hp : s.pending.contains p) (hspared : Spares sig p s (index, signed)) :
    (s.apply sig index signed).2.pending.contains p ↔ index - p < s.settings.pendingExpiry := by
  have hkept := hspared hok hp
  have hsettings := (settings_of_apply_ok hok hgroup).2
  rw [apply_ok_eq hok] at hsettings ⊢
  rw [← Std.ExtTreeMap.mem_iff_contains, OrdMap.mem_iff_exists] at hkept ⊢
  obtain ⟨waiting, hwaiting⟩ := hkept
  rw [← hsettings]
  constructor
  · rintro ⟨waiting, hthere⟩
    exact (sweep_pending.mp hthere).2
  · intro hfresh
    exact ⟨waiting, sweep_pending.mpr ⟨hwaiting, hfresh⟩⟩

/-- What has been taken out is not put back by a later entry. -/
theorem not_contains_apply {index : ℕ} (signed : SignedEvent) (hlater : p < index)
    (hp : ¬s.pending.contains p) : ¬(s.apply sig index signed).2.pending.contains p := by
  rcases apply_cases sig s index signed with hsame | ⟨-, -, -, u, hstep, hnext⟩
  · rwa [hsame]
  · rw [hnext, ← Std.ExtTreeMap.mem_iff_contains, OrdMap.mem_iff_exists]
    rintro ⟨waiting, hwaiting⟩
    rcases hstep.pending_event (sweep_pending.mp hwaiting).1 with ⟨old, hold, -⟩ | ⟨rfl, -⟩
    · exact hp (Std.ExtTreeMap.mem_iff_contains.mp (OrdMap.mem_iff_exists.mpr ⟨old, hold⟩))
    · exact lt_irrefl _ hlater

/-! ## Any number of entries -/

theorem changes_of_ok {entry : ℕ × SignedEvent} (h : (s.apply sig entry.1 entry.2).1 = .ok ())
    (post : Log SignedEvent) : changes sig s (entry :: post) =
      entry.1 :: changes sig (next sig s entry) post := by
  rw [changes, next]
  rcases happly : s.apply sig entry.1 entry.2 with ⟨verdict, t⟩
  rw [happly] at h
  obtain rfl : verdict = .ok () := h
  rfl

theorem changes_of_error {entry : ℕ × SignedEvent} {error : ConsensusError}
    (h : (s.apply sig entry.1 entry.2).1 = .error error) (post : Log SignedEvent) :
    next sig s entry = s ∧ changes sig s (entry :: post) = changes sig s post := by
  rw [next]
  rcases happly : s.apply sig entry.1 entry.2 with ⟨verdict, t⟩
  rw [happly] at h
  obtain rfl : verdict = .error error := h
  obtain rfl := apply_error happly
  refine ⟨rfl, ?_⟩
  rw [changes, happly]

theorem changes_append (before after : Log SignedEvent) : ∀ s : MembershipState,
    changes sig s (before ++ after) = changes sig s before ++
      changes sig (exec (next sig) s before) after := by
  induction before with
  | nil => exact fun _ => rfl
  | cons entry before ih =>
    intro s
    rw [List.cons_append, exec_cons]
    rcases hverdict : (s.apply sig entry.1 entry.2).1 with error | _
    · obtain ⟨hsame, hskip⟩ := changes_of_error hverdict (before ++ after)
      rw [hskip, (changes_of_error hverdict before).2, ih, hsame]
    · rw [changes_of_ok hverdict, changes_of_ok hverdict, ih, List.cons_append]

/-- The changes are some of the entries, in their order. -/
theorem changes_sublist (post : Log SignedEvent) : ∀ s : MembershipState,
    (changes sig s post).Sublist (post.map Prod.fst) := by
  induction post with
  | nil => exact fun _ => List.Sublist.slnil
  | cons entry post ih =>
    intro s
    rcases hverdict : (s.apply sig entry.1 entry.2).1 with error | _
    · rw [(changes_of_error hverdict post).2]
      exact (ih s).cons _
    · rw [changes_of_ok hverdict]
      exact (ih _).cons_cons _

/-- Any number of first changes are all the changes of some first part of the log. -/
theorem exists_changes_eq_take (n : ℕ) (post : Log SignedEvent) : ∀ s : MembershipState,
    ∃ before after, post = before ++ after ∧ changes sig s before = (changes sig s post).take n := by
  induction post generalizing n with
  | nil => exact fun _ => ⟨[], [], rfl, List.take_nil.symm⟩
  | cons entry post ih =>
    intro s
    rcases hverdict : (s.apply sig entry.1 entry.2).1 with error | _
    · obtain ⟨before, after, rfl, htake⟩ := ih n s
      refine ⟨entry :: before, after, rfl, ?_⟩
      rw [(changes_of_error hverdict _).2, (changes_of_error hverdict _).2, htake]
    · cases n with
      | zero => exact ⟨[], entry :: post, rfl, rfl⟩
      | succ n =>
        obtain ⟨before, after, rfl, htake⟩ := ih n (next sig s entry)
        refine ⟨entry :: before, after, rfl, ?_⟩
        rw [changes_of_ok hverdict, changes_of_ok hverdict, htake, List.take_succ_cons]

theorem not_contains_exec (post : Log SignedEvent) (hlater : ∀ entry ∈ post, p < entry.1) :
    ∀ {s : MembershipState}, ¬s.pending.contains p →
      ¬(exec (next sig) s post).pending.contains p := by
  induction post with
  | nil => exact fun hp => hp
  | cons entry post ih =>
    intro s hp
    obtain ⟨hfirst, hrest⟩ := List.forall_mem_cons.mp hlater
    exact ih hrest (not_contains_apply entry.2 hfirst hp)

/-- A proposal left to the sweep waits as long as every change is within its expiry. -/
theorem contains_exec_iff (post : Log SignedEvent) (hlater : ∀ entry ∈ post, p < entry.1) :
    ∀ {s : MembershipState}, s.group.isSome → s.pending.contains p → LeftAlone sig p s post →
      ((exec (next sig) s post).pending.contains p ↔
        ∀ index ∈ changes sig s post, index - p < s.settings.pendingExpiry) := by
  induction post with
  | nil =>
    intro s _ hp _
    exact ⟨fun _ index hmem => absurd hmem List.not_mem_nil, fun _ => hp⟩
  | cons entry post ih =>
    rintro s hgroup hp ⟨hspared, hrest⟩
    obtain ⟨hfirst, hlater⟩ := List.forall_mem_cons.mp hlater
    rw [exec_cons]
    rcases hverdict : (s.apply sig entry.1 entry.2).1 with error | _
    · obtain ⟨hsame, hskip⟩ := changes_of_error hverdict post
      rw [hskip, hsame]
      rw [hsame] at hrest
      exact ih hlater hgroup hp hrest
    · obtain ⟨hgroup', hsettings⟩ : (next sig s entry).group.isSome ∧
          (next sig s entry).settings = s.settings := settings_of_apply_ok hverdict hgroup
      have hkept : (next sig s entry).pending.contains p ↔
          entry.1 - p < s.settings.pendingExpiry := contains_of_spared hverdict hgroup hp hspared
      rw [changes_of_ok hverdict, List.forall_mem_cons, ← hkept]
      by_cases hthere : (next sig s entry).pending.contains p
      · rw [ih hlater hgroup' hthere hrest, hsettings, and_iff_right hthere]
      · exact ⟨fun hp => absurd hp (not_contains_exec post hlater hthere),
          fun h => absurd h.1 hthere⟩

/-! ## The count -/

/-- What is known where a proposal waits: the group is founded, the last change is within
the proposal's expiry, and the count says by how much. -/
theorem expiresAfter_spec (hasc : Ascending log) (hp : (fold sig log).pending.contains p) :
    (fold sig log).group.isSome ∧ p ≤ (fold sig log).changedAt ∧
      (fold sig log).changedAt + (fold sig log).expiresAfter p + 1 =
        p + (fold sig log).settings.pendingExpiry := by
  obtain ⟨waiting, hwaiting⟩ := OrdMap.mem_iff_exists.mp (Std.ExtTreeMap.mem_iff_contains.mpr hp)
  obtain ⟨hplaced, hfresh⟩ := (tidy_fold sig log hasc).placed p waiting hwaiting
  refine ⟨founded_of_pending sig log hasc p waiting hwaiting, hplaced, ?_⟩
  rw [expiresAfter]
  omega

/-- A continuation is later than a proposal that waits, and than the last change. -/
theorem later_of_ascending (hasc : Ascending (log ++ post))
    (hp : (fold sig log).pending.contains p) {entry : ℕ × SignedEvent} (hmem : entry ∈ post) :
    p < entry.1 ∧ (fold sig log).changedAt < entry.1 := by
  obtain ⟨waiting, hwaiting⟩ := OrdMap.mem_iff_exists.mp (Std.ExtTreeMap.mem_iff_contains.mpr hp)
  obtain ⟨submission, haccepted, -⟩ := (provenance sig log hasc.left p waiting hwaiting).1
  have hlater := hasc.lt_of_mem haccepted.mem hmem
  refine ⟨hlater, ?_⟩
  rcases changedAt_mem sig log hasc.left with hzero | ⟨last, hlast⟩
  · rw [hzero]
    exact Nat.zero_lt_of_lt hlater
  · exact hasc.lt_of_mem hlast hmem

/-- The changes of a continuation are increasing, and later than the last change. -/
theorem changes_increasing (hasc : Ascending (log ++ post))
    (hp : (fold sig log).pending.contains p) :
    (changes sig (fold sig log) post).Pairwise (· < ·) ∧
      ∀ index ∈ changes sig (fold sig log) post, (fold sig log).changedAt < index := by
  have hsublist : (changes sig (fold sig log) post).Sublist (post.map Prod.fst) :=
    changes_sublist post (fold sig log)
  refine ⟨(List.pairwise_map.mpr (List.pairwise_append.mp hasc).2.1).sublist hsublist,
    fun index hmem => ?_⟩
  obtain ⟨entry, hentry, rfl⟩ := List.mem_map.mp (hsublist.subset hmem)
  exact (later_of_ascending hasc hp hentry).2

/-- Left to the sweep, a proposal waits as long as no change is later than the count says
from the last one before. -/
theorem contains_fold_iff (hasc : Ascending (log ++ post))
    (hp : (fold sig log).pending.contains p) (halone : LeftAlone sig p (fold sig log) post) :
    (fold sig (log ++ post)).pending.contains p ↔
      ∀ index ∈ changes sig (fold sig log) post,
        index ≤ (fold sig log).changedAt + (fold sig log).expiresAfter p := by
  obtain ⟨hgroup, hplaced, hcount⟩ := expiresAfter_spec hasc.left hp
  have hlater : ∀ entry ∈ post, p < entry.1 := fun entry hmem => (later_of_ascending hasc hp hmem).1
  have hfold : fold sig (log ++ post) = exec (next sig) (fold sig log) post := run_append ..
  rw [hfold, contains_exec_iff post hlater hgroup hp halone]
  refine forall₂_congr fun index hmem => ?_
  have hafter := (changes_increasing hasc hp).2 index hmem
  omega

/-- **The number is never too small**: left to the sweep, a proposal is swept by the change
after as many as it is said to wait through, whatever else is in the log. -/
theorem swept_by_the_next (hasc : Ascending (log ++ post))
    (hp : (fold sig log).pending.contains p) (halone : LeftAlone sig p (fold sig log) post)
    (hmore : (fold sig log).expiresAfter p < (changes sig (fold sig log) post).length) :
    ¬(fold sig (log ++ post)).pending.contains p := by
  rw [contains_fold_iff hasc hp halone]
  intro hwithin
  obtain ⟨hsorted, habove⟩ := changes_increasing hasc hp
  have hsome : changes sig (fold sig log) post ≠ [] :=
    List.ne_nil_of_length_pos (Nat.zero_lt_of_lt hmore)
  obtain ⟨last, hlast, hfar⟩ := exists_ge_of_increasing hsorted habove hsome
  have hnear := hwithin last hlast
  omega

/-- After as many changes as it is said to wait through, a proposal waits exactly if they are
the very next indices of the log. -/
theorem waits_iff (hasc : Ascending (log ++ post)) (hp : (fold sig log).pending.contains p)
    (halone : LeftAlone sig p (fold sig log) post)
    (hmany : (changes sig (fold sig log) post).length = (fold sig log).expiresAfter p) :
    (fold sig (log ++ post)).pending.contains p ↔
      changes sig (fold sig log) post =
        List.range' ((fold sig log).changedAt + 1) ((fold sig log).expiresAfter p) := by
  obtain ⟨hsorted, habove⟩ := changes_increasing hasc hp
  rw [contains_fold_iff hasc hp halone, ← hmany, increasing_within_iff hsorted habove]

/-- **When the count is right.** Over any continuation that leaves a waiting proposal to the
sweep, what the operator is told holds exactly if, where there are so many further changes,
they are made at the very next indices: no entry among them is refused, and none carries no
event. -/
theorem count_kept_iff (sig : Signing) (log post : Log SignedEvent) (p : ℕ)
    (hasc : Ascending (log ++ post)) (hp : (fold sig log).pending.contains p)
    (halone : LeftAlone sig p (fold sig log) post) :
    CountKept sig log p post ↔
      ((fold sig log).expiresAfter p ≤ (changes sig (fold sig log) post).length →
        (changes sig (fold sig log) post).take ((fold sig log).expiresAfter p) =
          List.range' ((fold sig log).changedAt + 1) ((fold sig log).expiresAfter p)) := by
  have hpart : ∀ before after, post = before ++ after →
      Ascending (log ++ before) ∧ LeftAlone sig p (fold sig log) before := by
    rintro before after rfl
    rw [← List.append_assoc] at hasc
    exact ⟨hasc.left, (along_append.mp halone).1⟩
  constructor
  · intro hkept hmany
    obtain ⟨before, after, hpost, htake⟩ : ∃ before after, post = before ++ after ∧
        changes sig (fold sig log) before =
          (changes sig (fold sig log) post).take ((fold sig log).expiresAfter p) :=
      exists_changes_eq_take _ post _
    obtain ⟨hasc, halone⟩ := hpart before after hpost
    have hlength : (changes sig (fold sig log) before).length = (fold sig log).expiresAfter p := by
      rw [htake, List.length_take, Nat.min_eq_left hmany]
    rw [← htake]
    exact (waits_iff hasc hp halone hlength).mp ((hkept before after hpost).1 hlength)
  · rintro hnext before after rfl
    obtain ⟨hasc, halone⟩ := hpart before after rfl
    rw [changes_append] at hnext
    refine ⟨fun hlength => (waits_iff hasc hp halone hlength).mpr ?_,
      fun hlength => swept_by_the_next hasc hp halone (by omega)⟩
    have hfirst := hnext (by rw [List.length_append]; omega)
    rwa [List.take_left' hlength] at hfirst

/-- Two founders whose proposals wait for three entries, and the expulsion of one of them
proposed at index 2: it is said to wait through two more changes. -/
def proposed : Log SignedEvent :=
  [(1, .signedBy alice 0 (.groupFounded ⟨9⟩ [(⟨alice, "alice"⟩, default), (⟨bob, "bob"⟩, default)]
    { (default : GroupSettings) with pendingExpiry := Nat.succPNat 2 })),
   (2, .signedBy alice 1 (.memberExpelled bob "gone"))]

/-- Alice pledges as many times ten gigabytes, against the membership of `changedAt`. -/
def pledges (changedAt tens : ℕ) : SignedEvent :=
  .signedBy alice changedAt (.pledgeChanged alice (tens * 10000000000))

/-- Three pledges in a row: the expulsion waits through two and is swept by the third. -/
theorem count_kept_iff_in_a_row :
    CountKept .accepting proposed 2 [(3, pledges 2 20), (4, pledges 3 30), (5, pledges 4 40)] :=
  (count_kept_iff .accepting proposed _ 2 (by decide) (by decide +kernel)
    (by rw [LeftAlone]; decide +kernel)).mpr (by decide +kernel)

/-- A pledge against a membership that is no more is refused at index 3. The two that follow
are the two further changes, and the second of them sweeps the expulsion. -/
theorem refused_entry_counts :
    let post := [(3, pledges 1 20), (4, pledges 2 20), (5, pledges 4 30)]
    Ascending (proposed ++ post) ∧ (fold .accepting proposed).pending.contains 2 ∧
      LeftAlone .accepting 2 (fold .accepting proposed) post ∧
      (fold .accepting proposed).expiresAfter 2 = 2 ∧
      changes .accepting (fold .accepting proposed) post = [4, 5] ∧
      ¬CountKept .accepting proposed 2 post := by
  refine ⟨by decide, by decide +kernel, by rw [LeftAlone]; decide +kernel, by decide +kernel,
    by decide +kernel, fun hkept => ?_⟩
  have hwaits := (hkept _ [] (List.append_nil _).symm).1 (by decide +kernel)
  revert hwaits
  decide +kernel

end MembershipState

end Distlib
