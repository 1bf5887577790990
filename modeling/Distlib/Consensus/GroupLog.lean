import Distlib.Consensus.Pending
import Distlib.Consensus.Replay

/-!
# The log as it grows

A call that proposes something sees the log at many moments, and entries come in
between. What it can rely on is that entries are only added, above all before: the
verdict on an entry stands (`verdictAt_append`), and the membership only moves on.

An entry is folded only against the membership it was signed against, and a success
moves the group past that one. So the same signed event takes effect at most once
(`stale_of_accepted`), and one that would be refused now is refused ever after
(`Refuses.append`).
-/

namespace Distlib

open IndexedLog MembershipState

/-- The membership events committed so far. The entry at index zero is Raft's own first
configuration. -/
@[ext]
structure GroupLog where
  entries : Log SignedEvent
  ascending : Ascending entries
  positive : ∀ entry ∈ entries, 0 < entry.1

namespace GroupLog

/-- An entry may come at `index`. -/
def Next (log : GroupLog) (index : ℕ) : Prop := 0 < index ∧ ∀ entry ∈ log.entries, entry.1 < index

instance (log : GroupLog) (index : ℕ) : Decidable (log.Next index) :=
  inferInstanceAs (Decidable (0 < index ∧ ∀ entry ∈ log.entries, entry.1 < index))

theorem ascending_append (log : GroupLog) {index : ℕ} (signed : SignedEvent) (h : log.Next index) :
    Ascending (log.entries ++ [(index, signed)]) := by
  refine List.pairwise_append.mpr ⟨log.ascending, List.pairwise_singleton _ _, ?_⟩
  intro entry hentry last hlast
  rw [List.mem_singleton.mp hlast]
  exact h.2 entry hentry

/-- The log with one more entry. -/
def append (log : GroupLog) (index : ℕ) (signed : SignedEvent) (h : log.Next index) : GroupLog where
  entries := log.entries ++ [(index, signed)]
  ascending := log.ascending_append signed h
  positive := by
    intro entry hentry
    rcases List.mem_append.mp hentry with hold | hnew
    · exact log.positive entry hold
    · rw [List.mem_singleton.mp hnew]
      exact h.1

/-- Its first `count` entries. -/
def take (log : GroupLog) (count : ℕ) : GroupLog where
  entries := log.entries.take count
  ascending := List.Pairwise.sublist (List.take_sublist count log.entries) log.ascending
  positive := fun entry hentry => log.positive entry (List.mem_of_mem_take hentry)

/-- The membership the group is at. -/
def membership (sig : Signing) (log : GroupLog) : MembershipState := fold sig log.entries

/-- What became of the entry at `position` of the log: the index it took effect at, or why
the rules refused it. -/
def verdictAt (sig : Signing) (log : GroupLog) (position : ℕ) : Option (Except ConsensusError ℕ) :=
  log.entries[position]?.map fun entry =>
    (((log.take position).membership sig).apply sig entry.1 entry.2).1.map fun () => entry.1

/-- At no index to come would the rules accept `signed` as the next entry. -/
def Refuses (sig : Signing) (log : GroupLog) (signed : SignedEvent) : Prop :=
  ∀ index, log.Next index → ((log.membership sig).apply sig index signed).1 ≠ .ok ()

/-! ### What stays as the log grows -/

variable {sig : Signing} {log : GroupLog} {index : ℕ} {signed other : SignedEvent}

theorem membership_append (h : log.Next index) :
    (log.append index signed h).membership sig = ((log.membership sig).apply sig index signed).2 :=
  fold_concat sig log.entries index signed

theorem changedAt_lt_next (sig : Signing) (h : log.Next index) : (log.membership sig).changedAt < index := by
  rcases changedAt_mem sig log.entries log.ascending with hzero | ⟨last, hlast⟩
  · rw [membership, hzero]
    exact h.1
  · exact h.2 _ hlast

theorem changedAt_take_le (sig : Signing) (log : GroupLog) (count : ℕ) :
    ((log.take count).membership sig).changedAt ≤ (log.membership sig).changedAt := by
  have hsplit : log.entries.take count ++ log.entries.drop count = log.entries :=
    List.take_append_drop count log.entries
  have hle := changedAt_fold_le sig (log.entries.take count) (log.entries.drop count)
    (by rw [hsplit]; exact log.ascending)
  rw [hsplit] at hle
  exact hle

theorem changedAt_append_le (h : log.Next index) :
    (log.membership sig).changedAt ≤ ((log.append index signed h).membership sig).changedAt :=
  changedAt_fold_le sig log.entries [(index, signed)] (log.ascending_append signed h)

/-- What comes after the last change of a reading is of the group and not of the reading. -/
theorem through_take (sig : Signing) (log : GroupLog) (count : ℕ) :
    through ((log.take count).membership sig).changedAt (log.take count).entries =
      through ((log.take count).membership sig).changedAt log.entries := by
  have hsplit : log.entries.take count ++ log.entries.drop count = log.entries :=
    List.take_append_drop count log.entries
  have hasc : Ascending (log.entries.take count ++ log.entries.drop count) := by
    rw [hsplit]
    exact log.ascending
  have hlater : through ((log.take count).membership sig).changedAt (log.entries.drop count) = [] := by
    refine List.filter_eq_nil_iff.mpr ?_
    intro entry hentry
    rw [decide_eq_true_eq, not_le]
    rcases changedAt_mem sig (log.take count).entries (log.take count).ascending with hzero | ⟨last, hlast⟩
    · rw [membership, hzero]
      exact log.positive entry (List.mem_of_mem_drop hentry)
    · exact hasc.lt_of_mem hlast hentry
  calc through ((log.take count).membership sig).changedAt (log.take count).entries
      = through ((log.take count).membership sig).changedAt (log.entries.take count) ++ [] :=
        (List.append_nil _).symm
    _ = through ((log.take count).membership sig).changedAt
          (log.entries.take count ++ log.entries.drop count) := by
        rw [← hlater, through, through, through, List.filter_append]
    _ = through ((log.take count).membership sig).changedAt log.entries := by rw [hsplit]

/-- **The same `changedAt` is the same membership**, however far each of two nodes has read. -/
theorem membership_eq_of_changedAt {a b : ℕ}
    (h : ((log.take a).membership sig).changedAt = ((log.take b).membership sig).changedAt) :
    (log.take a).membership sig = (log.take b).membership sig := by
  calc (log.take a).membership sig
      = fold sig (through ((log.take a).membership sig).changedAt log.entries) := by
        rw [← through_take, membership]
        exact (fold_through_changedAt sig _ (log.take a).ascending).symm
    _ = fold sig (through ((log.take b).membership sig).changedAt log.entries) := by rw [h]
    _ = (log.take b).membership sig := by
        rw [← through_take, membership]
        exact fold_through_changedAt sig _ (log.take b).ascending

/-- A success is of an entry proposed against the membership it meets, and moves the
membership on to its index. -/
theorem changedAt_of_accepted (h : log.Next index)
    (hok : ((log.membership sig).apply sig index signed).1 = .ok ()) :
    signed.changedAt = (log.membership sig).changedAt ∧
      ((log.append index signed h).membership sig).changedAt = index := by
  obtain ⟨u, hu⟩ := succeeds_of_apply hok
  refine ⟨hu.current, ?_⟩
  rw [membership, append, hu.next]
  rfl

theorem next_take {position : ℕ} (hentry : log.entries[position]? = some (index, signed)) :
    (log.take position).Next index := by
  obtain ⟨hlt, hget⟩ := List.getElem?_eq_some_iff.mp hentry
  refine ⟨log.positive (index, signed) (hget ▸ List.getElem_mem hlt), ?_⟩
  intro entry hold
  have hasc : Ascending (log.entries.take position ++ log.entries.drop position) := by
    rw [List.take_append_drop]
    exact log.ascending
  refine hasc.lt_of_mem hold (b := (index, signed)) ?_
  rw [List.drop_eq_getElem_cons hlt, hget]
  exact List.mem_cons_self

theorem append_take {position : ℕ} (hentry : log.entries[position]? = some (index, signed)) :
    (log.take position).append index signed (next_take hentry) = log.take (position + 1) := by
  apply GroupLog.ext
  change log.entries.take position ++ [(index, signed)] = log.entries.take (position + 1)
  rw [List.take_add_one, hentry]
  rfl

theorem verdictAt_append {position : ℕ} (h : log.Next index) (hold : position < log.entries.length) :
    (log.append index signed h).verdictAt sig position = log.verdictAt sig position := by
  rw [verdictAt, verdictAt, append, List.getElem?_append_left hold]
  simp only [membership, take, List.take_append_of_le_length hold.le]

theorem verdictAt_last (h : log.Next index) :
    (log.append index signed h).verdictAt sig log.entries.length =
      some (((log.membership sig).apply sig index signed).1.map fun () => index) := by
  simp only [verdictAt, append, List.getElem?_concat_length, Option.map_some, membership, take,
    List.take_left]

theorem accepted_of_verdictAt {position index' : ℕ}
    (hentry : log.entries[position]? = some (index, signed))
    (hok : log.verdictAt sig position = some (.ok index')) :
    (((log.take position).membership sig).apply sig index signed).1 = .ok () := by
  rw [verdictAt, hentry, Option.map_some] at hok
  rcases h : (((log.take position).membership sig).apply sig index signed).1 with error | ⟨⟩
  · rw [h] at hok
    cases hok
  · rfl

/-- **The same signed event takes effect at most once**: once it has, the group has left
the membership it was signed against. -/
theorem stale_of_accepted {position index' : ℕ}
    (hentry : log.entries[position]? = some (index, signed))
    (hok : log.verdictAt sig position = some (.ok index')) :
    signed.changedAt < (log.membership sig).changedAt := by
  obtain ⟨hcurrent, hmoved⟩ :=
    changedAt_of_accepted (next_take hentry) (accepted_of_verdictAt hentry hok)
  rw [append_take hentry] at hmoved
  calc signed.changedAt
      = ((log.take position).membership sig).changedAt := hcurrent
    _ < index := changedAt_lt_next sig (next_take hentry)
    _ = ((log.take (position + 1)).membership sig).changedAt := hmoved.symm
    _ ≤ (log.membership sig).changedAt := changedAt_take_le sig log (position + 1)

/-- What was signed against another membership than the group's is refused. -/
theorem refuses_of_stale (h : signed.changedAt ≠ (log.membership sig).changedAt) :
    log.Refuses sig signed := by
  intro index hnext hok
  exact h (changedAt_of_accepted hnext hok).1

/-- What was signed against a membership the group has been at, and would be refused, would
be refused after any entry. -/
theorem Refuses.append (hrefuses : log.Refuses sig signed)
    (hpast : signed.changedAt ≤ (log.membership sig).changedAt) (h : log.Next index) :
    (log.append index other h).Refuses sig signed := by
  rcases happly : (log.membership sig).apply sig index other with ⟨error | ⟨⟩, t⟩
  · -- a refused entry changes nothing
    intro later hlater
    rw [membership_append, happly, apply_error happly]
    exact hrefuses later ⟨hlater.1, fun entry hentry => hlater.2 entry (List.mem_append_left _ hentry)⟩
  · obtain ⟨-, hmoved⟩ := changedAt_of_accepted h (congrArg Prod.fst happly)
    have hlt := changedAt_lt_next sig h
    exact refuses_of_stale (by omega)

end GroupLog

end Distlib
