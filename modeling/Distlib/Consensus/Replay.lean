import Distlib.Consensus.Pending

/-!
# Reading the log again from its start

A node that has lost its cursor asks for the log from zero and folds every entry
a second time, at its own index, into the state it already has. Nothing marks an
entry as seen. What is meant to refuse it is the membership its signer stated:
an entry proposed against an older `changedAt` is stale.

That argument has two cases, and a hole.

* An entry **above** the last change was refused the first time, over the very
  state the node holds now, and is refused again (`replay_above`).
* An entry **at or below** it is stale, unless the index its signer stated is
  that of the last change. For an entry that states an index it could have seen
  this cannot happen.
* But nothing compares what a signer states with the index the entry gets. An
  entry that states an index *still to come* is refused when it is committed and
  is current once the log has reached that index: read again, it takes effect.

`Foretells` is the hole, and `replay_converges_iff` says that there is no other.
-/

namespace Distlib

open IndexedLog

namespace MembershipState

variable {s u : MembershipState} {sig : Signing}

/-- Folds `log` into a state that is already there, refusals skipped. -/
def refold (sig : Signing) (s : MembershipState) (log : Log SignedEvent) : MembershipState :=
  run (fun s index signed => (s.apply sig index signed).2) s log

theorem refold_append (sig : Signing) (s : MembershipState) (pre post : Log SignedEvent) :
    refold sig s (pre ++ post) = refold sig (refold sig s pre) post :=
  run_append ..

theorem refold_fold (sig : Signing) (pre post : Log SignedEvent) :
    refold sig (fold sig pre) post = fold sig (pre ++ post) :=
  (run_append ..).symm

/-- What re-reading is relied on for: from the fold through any `N`, everything
through any later `M` again leads to the fold through `M`, and an entry that was
folded already changes nothing. -/
def ReplayConverges (sig : Signing) (log : Log SignedEvent) : Prop :=
  (∀ N M, N ≤ M → refold sig (fold sig (through N log)) (through M log) = fold sig (through M log)) ∧
    ∀ N, ∀ entry ∈ through N log,
      ((fold sig (through N log)).apply sig entry.1 entry.2).2 = fold sig (through N log)

/-- A verified entry at `i` states the index `c` of a change that comes after it,
and once that change is made the rules, staleness apart, have no objection. -/
structure Foretells (sig : Signing) (log : Log SignedEvent) (i c : ℕ) (signed : SignedEvent) :
    Prop where
  later : i < c
  states : signed.changedAt = c
  verified : signed.verify sig = .ok ()
  changed : (fold sig (through c log)).changedAt = c
  accepted : ((fold sig (through c log)).dispatch i signed.proposer signed.payload).1 = .ok ()

/-! ## What an entry read again comes upon -/

/-- A verified entry that states the current membership gets the verdict of the
rules. -/
theorem apply_of_current {index : ℕ} {signed : SignedEvent} (hverified : signed.verify sig = .ok ())
    (hcurrent : signed.changedAt = s.changedAt) :
    (s.apply sig index signed).1 = (s.dispatch index signed.proposer signed.payload).1 := by
  have hevent : signed.event sig = .ok signed.payload := by
    rw [SignedEvent.event, hverified]
  rw [apply, hevent]
  simp only [hcurrent, ne_eq, not_true_eq_false, if_false]
  rcases s.dispatch index signed.proposer signed.payload with ⟨error | ⟨⟩, t⟩ <;> rfl

/-- An entry above the last change was refused over this very state. -/
theorem replay_above (sig : Signing) (log : Log SignedEvent) (hasc : Ascending log) :
    ∀ entry ∈ log, (fold sig log).changedAt < entry.1 →
      ((fold sig log).apply sig entry.1 entry.2).2 = fold sig log := by
  refine fold_induction (P := fun log s => ∀ entry ∈ log, s.changedAt < entry.1 →
    (s.apply sig entry.1 entry.2).2 = s) (by simp) ?_ ?_ log hasc
  · intro pre i signed hasc hpre hsame entry hentry habove
    rcases List.mem_append.mp hentry with hold | hnew
    · exact hpre entry hold habove
    · rw [List.mem_singleton.mp hnew, ← fold_concat, hsame]
  · intro pre i signed u hasc hpre hu entry hentry habove
    -- the entry that took effect is the last, and nothing stands above it
    rcases List.mem_append.mp hentry with hold | hnew
    · exact absurd habove (hasc.lt_last hold).not_gt
    · rw [List.mem_singleton.mp hnew] at habove
      exact absurd habove (lt_irrefl _)

/-- The event that founded a group does not found it again. -/
theorem Step.founds_once {index index' : ℕ} {proposer proposer' : MemberId} {event : MembershipEvent}
    {w : MembershipState} (h : Step new index proposer event u)
    (h' : Step (u.sweep index) index' proposer' event w) : False := by
  cases h with
  | founded fresh checked =>
    cases h' with
    | founded fresh' => cases fresh'
    | atOnce group member allowed decided enacted =>
      obtain ⟨t, heffect, -⟩ := enacted
      cases heffect
    | waits group member allowed undecided proposable => cases proposable
  | atOnce group | waits group | agreed group | carried group | withdrawn group => cases group

/-- The entry that made the last change does not make it twice, even when it
states its own index: only a founding at index zero can do that. -/
theorem replay_last (sig : Signing) (log : Log SignedEvent) (hasc : Ascending log) :
    ∀ entry ∈ log, (fold sig log).changedAt = entry.1 → entry.2.changedAt = entry.1 →
      ((fold sig log).apply sig entry.1 entry.2).2 = fold sig log := by
  refine fold_induction (P := fun log s => ∀ entry ∈ log, s.changedAt = entry.1 →
    entry.2.changedAt = entry.1 → (s.apply sig entry.1 entry.2).2 = s) (by simp) ?_ ?_ log hasc
  · intro pre i signed hasc hpre hsame entry hentry hlast hstates
    rcases List.mem_append.mp hentry with hold | hnew
    · exact hpre entry hold hlast hstates
    · rw [List.mem_singleton.mp hnew, ← fold_concat, hsame]
  · intro pre i signed u hasc hpre hu entry hentry hlast hstates
    rcases List.mem_append.mp hentry with hold | hnew
    · exact absurd hlast.symm (hasc.lt_last hold).ne
    · obtain rfl := List.mem_singleton.mp hnew
      -- it was proposed against the state before it, which so stood at its own index
      have hbefore : (fold sig pre).changedAt = i := hu.current.symm.trans hstates
      have hnil : pre = [] := by
        rcases changedAt_mem sig pre hasc.left with hzero | ⟨last, hmem⟩
        · rcases pre with _ | ⟨first, rest⟩
          · rfl
          · have hfirst := hasc.lt_last List.mem_cons_self
            omega
        · exact absurd (hasc.lt_last hmem) (by simp [hbefore])
      subst hnil
      rcases apply_cases sig (u.sweep i) i signed with hsame | ⟨-, -, -, w, hstep, -⟩
      · exact hsame
      · exact (Step.founds_once hu.step hstep).elim

/-- Nothing happened since the last change. -/
theorem fold_through_changedAt (sig : Signing) (log : Log SignedEvent) (hasc : Ascending log) :
    fold sig (through (fold sig log).changedAt log) = fold sig log := by
  refine fold_induction (P := fun log s => fold sig (through s.changedAt log) = s) rfl ?_ ?_ log hasc
  · intro pre i signed hasc hpre hsame
    rw [through, List.filter_append, ← through]
    have hle : (fold sig pre).changedAt ≤ i := changedAt_le hasc
    rcases hle.lt_or_eq with hlt | heq
    · rw [List.filter_cons_of_neg (by simpa using hlt)]
      simpa using hpre
    · rw [List.filter_cons_of_pos (by simp [heq]), List.filter_nil, fold_concat, hpre,
        ← fold_concat, hsame]
  · intro pre i signed u hasc hpre hu
    have hall : through (u.sweep i).changedAt (pre ++ [(i, signed)]) = pre ++ [(i, signed)] := by
      refine List.filter_eq_self.mpr ?_
      intro entry hentry
      rcases List.mem_append.mp hentry with hold | hnew
      · exact decide_eq_true (hasc.lt_last hold).le
      · rw [List.mem_singleton.mp hnew]
        exact decide_eq_true le_rfl
    rw [hall, hu.next]

/-! ## Convergence -/

theorem through_through {n m : ℕ} (h : n ≤ m) (log : Log SignedEvent) :
    through n (through m log) = through n log := by
  rw [through, through, List.filter_filter]
  refine List.filter_congr ?_
  intro entry _
  simp only [Bool.and_eq_decide, decide_eq_true_eq, decide_eq_decide]
  omega

/-- **What has been folded stays folded**, unless it foretold the last change. -/
theorem replay_unchanged {log : Log SignedEvent} (hasc : Ascending log) {N : ℕ}
    (hnone : ∀ entry ∈ log, ∀ c, ¬ Foretells sig log entry.1 c entry.2) :
    ∀ entry ∈ through N log,
      ((fold sig (through N log)).apply sig entry.1 entry.2).2 = fold sig (through N log) := by
  intro entry hentry
  have hread : Ascending (through N log) := hasc.filter _
  rcases apply_cases sig (fold sig (through N log)) entry.1 entry.2 with
    hsame | ⟨hverified, hcurrent, hok, -⟩
  · exact hsame
  · rcases lt_trichotomy (fold sig (through N log)).changedAt entry.1 with habove | hat | hbelow
    · exact replay_above sig _ hread entry hentry habove
    · exact replay_last sig _ hread entry hentry hat (hcurrent.trans hat)
    · -- the state is the one the log had when it reached the index the signer stated
      exfalso
      have hle : (fold sig (through N log)).changedAt ≤ N := by
        rcases changedAt_mem sig _ hread with hzero | ⟨last, hlast⟩
        · omega
        · exact (mem_through.mp hlast).2
      have hstate : fold sig (through (fold sig (through N log)).changedAt log) =
          fold sig (through N log) := by
        rw [← through_through hle, fold_through_changedAt sig _ hread]
      refine hnone entry (mem_through.mp hentry).1 _ ⟨hbelow, hcurrent, hverified, ?_, ?_⟩
      · rw [hstate]
      · rw [hstate, ← apply_of_current hverified hcurrent]
        exact hok

/-- Entries that change nothing, one by one, change nothing together. -/
theorem refold_eq_self {log : Log SignedEvent}
    (h : ∀ entry ∈ log, (s.apply sig entry.1 entry.2).2 = s) : refold sig s log = s := by
  induction log with
  | nil => rfl
  | cons entry rest ih =>
    rw [← List.singleton_append, refold_append]
    change refold sig ((s.apply sig entry.1 entry.2).2) rest = s
    rw [h entry List.mem_cons_self]
    exact ih fun other hother => h other (List.mem_cons_of_mem _ hother)

/-- **Reading the log again converges exactly when no entry foretells a change.**
In particular it converges when every signer states an index below the one its
entry got. -/
theorem replay_converges_iff (sig : Signing) (log : Log SignedEvent) (hasc : Ascending log) :
    (ReplayConverges sig log ↔ ∀ entry ∈ log, ∀ c, ¬ Foretells sig log entry.1 c entry.2) ∧
      ((∀ entry ∈ log, entry.2.changedAt < entry.1) → ReplayConverges sig log) := by
  have hiff : ReplayConverges sig log ↔
      ∀ entry ∈ log, ∀ c, ¬ Foretells sig log entry.1 c entry.2 := by
    constructor
    · rintro ⟨-, hentries⟩ entry hentry c hforetells
      obtain ⟨hlater, hstates, hverified, hchanged, haccepted⟩ := hforetells
      have hsame := hentries c entry (mem_through.mpr ⟨hentry, hlater.le⟩)
      -- accepted, the entry would leave its own index as that of the last change
      have hok : ((fold sig (through c log)).apply sig entry.1 entry.2).1 = .ok () := by
        rw [apply_of_current hverified (hstates.trans hchanged.symm)]
        exact haccepted
      obtain ⟨u, hu⟩ := succeeds_of_apply hok
      have hindex : (fold sig (through c log)).changedAt = entry.1 := by
        rw [← hsame, ← fold_concat, hu.next]
        rfl
      omega
    · intro hnone
      have hentries : ∀ N, ∀ entry ∈ through N log,
          ((fold sig (through N log)).apply sig entry.1 entry.2).2 = fold sig (through N log) :=
        fun N => replay_unchanged hasc hnone
      refine ⟨?_, hentries⟩
      intro N M hle
      have hagain : refold sig (fold sig (through N log)) (through N log) =
          fold sig (through N log) := refold_eq_self (hentries N)
      rw [← through_append_between hasc hle, refold_append, hagain, refold_fold]
  refine ⟨hiff, ?_⟩
  intro hbelow
  refine hiff.mpr ?_
  intro entry hentry c hforetells
  have hlt := hbelow entry hentry
  have hlater := hforetells.later
  have hstates := hforetells.states
  omega

/-- Everybody states what was there to be seen: an admission, a proposal that
came too late and what a member says of itself, read again from the start. -/
theorem replay_converges_iff_usual :
    ReplayConverges .accepting
      [(1, .signedBy alice 0 (.groupFounded ⟨9⟩ [(⟨alice, "alice"⟩, default)] default)),
       (2, .signedBy alice 1 (.memberAdded ⟨bob, "bob"⟩)),
       (4, .signedBy alice 1 (.memberAdded ⟨carol, "carol"⟩)),
       (5, .signedBy bob 2 (.protocolSupported bob 1))] :=
  (replay_converges_iff .accepting _ (by decide)).2 (by decide)

/-- An admission that states index 3 is committed at index 2. -/
def foretellingLog : Log SignedEvent :=
  [(1, .signedBy alice 0 (.groupFounded ⟨9⟩ [(⟨alice, "alice"⟩, default)] default)),
   (2, .signedBy alice 3 (.memberAdded ⟨bob, "bob"⟩)),
   (3, .signedBy alice 1 (.memberAdded ⟨carol, "carol"⟩))]

/-- The log never admits bob; a node that reads it a second time does. -/
theorem replay_admits_bob :
    Ascending foretellingLog ∧
      (fold .accepting (through 3 foretellingLog)).isMember bob = false ∧
      (refold .accepting (fold .accepting (through 3 foretellingLog))
        (through 3 foretellingLog)).isMember bob = true ∧
      ¬ ReplayConverges .accepting foretellingLog := by
  have honce : (fold .accepting (through 3 foretellingLog)).isMember bob = false := by
    decide +kernel
  have htwice : (refold .accepting (fold .accepting (through 3 foretellingLog))
      (through 3 foretellingLog)).isMember bob = true := by
    decide +kernel
  refine ⟨by decide, honce, htwice, ?_⟩
  rintro ⟨hconverges, -⟩
  rw [hconverges 3 3 le_rfl, honce] at htwice
  cases htwice

end MembershipState

end Distlib
