import Distlib.Consensus.State

/-!
# The log as stored, and a page of it

What Raft commits is not only membership events. A new leader commits a blank
entry and a change of voters commits Raft's own configuration, each at an index
of its own, so the events of the log stand at indices with gaps between them.
`CommittedLog` is such a log: one entry at every index from zero, the first of
them the configuration Raft is initialised with.

A node keeps the entries as encoded rows keyed by index. `eventsAfter` reads a
page of them for somebody who has read through `after`: it passes over what is
not an event, and stops at a limit on the number of events or on their bytes.
What a page promises is `eventsAfter_eq`: the events it holds are the first of
those past `after` and up to `upTo`, and it says it was cut short exactly when it
leaves some of them out, in which case it holds at least one.

The encoding is a library's and is a parameter; what is asked of it is only
that it decodes what it encoded.
-/

namespace Distlib

open IndexedLog

/-! ## Entries -/

/-- The id of an entry: the leader that appended it, and its index. -/
structure LogId where
  term : ℕ
  node : MemberId
  index : ℕ
  deriving DecidableEq

/-- Raft's own configuration: its voters, as one set or as the two sets of a
change in progress, and where each node is reached. -/
structure RaftMembership where
  configs : List (Finset MemberId)
  nodes : OrdMap MemberId NodeAddr
  deriving DecidableEq

/-- What an entry carries. -/
inductive EntryPayload : Type where
  /-- a no-op a new leader commits to establish its term -/
  | blank
  | normal (event : SignedEvent)
  | membership (membership : RaftMembership)
  deriving DecidableEq

/-- The membership event of a payload, if it carries one. -/
def EntryPayload.event? : EntryPayload → Option SignedEvent
  | .normal event => some event
  | _ => none

theorem EntryPayload.eq_normal_of_event? {payload : EntryPayload} {event : SignedEvent}
    (h : payload.event? = some event) : payload = .normal event := by
  cases payload <;> cases h
  rfl

/-- One entry of the Raft log. -/
structure Entry where
  logId : LogId
  payload : EntryPayload
  deriving DecidableEq

/-- The membership events among entries, each at its index. -/
def eventsOf (entries : Log Entry) : Log SignedEvent :=
  entries.filterMap fun entry => entry.2.payload.event?.map fun event => (entry.1, event)

theorem mem_eventsOf {entries : Log Entry} {i : ℕ} {event : SignedEvent} :
    (i, event) ∈ eventsOf entries ↔ ∃ entry, (i, entry) ∈ entries ∧
      entry.payload.event? = some event := by
  simp only [eventsOf, List.mem_filterMap, Option.map_eq_some_iff, Prod.mk.injEq]
  constructor
  · rintro ⟨⟨j, entry⟩, hmem, found, hfound, rfl, rfl⟩
    exact ⟨entry, hmem, hfound⟩
  · rintro ⟨entry, hmem, hevent⟩
    exact ⟨(i, entry), hmem, event, hevent, rfl, rfl⟩

theorem ascending_eventsOf {entries : Log Entry} (h : Ascending entries) :
    Ascending (eventsOf entries) := by
  refine List.Pairwise.filterMap _ ?_ h
  intro a b hlt x hx y hy
  obtain ⟨_, -, rfl⟩ := Option.map_eq_some_iff.mp hx
  obtain ⟨_, -, rfl⟩ := Option.map_eq_some_iff.mp hy
  exact hlt

/-- Selecting by index before or after looking for the events is the same. -/
theorem eventsOf_filter (entries : Log Entry) (keep : ℕ → Bool) :
    eventsOf (entries.filter fun entry => keep entry.1) =
      (eventsOf entries).filter fun entry => keep entry.1 := by
  induction entries with
  | nil => rfl
  | cons entry rest ih =>
    rw [List.filter_cons]
    cases hevent : entry.2.payload.event? <;> cases hkeep : keep entry.1 <;>
      simp_all [eventsOf]

/-- What the group has committed: an entry at every index, and at index zero
the configuration Raft was initialised with, before which no event can be
written. -/
structure CommittedLog where
  entries : List Entry
  placed : entries.map (fun entry => entry.logId.index) = List.range entries.length
  configured : ∀ entry ∈ entries.head?, entry.payload.event? = none
  /-- an index is a `u64` -/
  bounded : entries.length ≤ 2 ^ 64

namespace CommittedLog

variable (log : CommittedLog)

/-- The entries, each with its index. -/
def indexed : Log Entry := log.entries.map fun entry => (entry.logId.index, entry)

/-- The membership events, each at its index. -/
def events : Log SignedEvent := eventsOf log.indexed

variable {log}

theorem index_of_get {i : ℕ} {entry : Entry} (h : log.entries[i]? = some entry) :
    entry.logId.index = i := by
  have hmap : (log.entries.map fun entry => entry.logId.index)[i]? = some entry.logId.index := by
    rw [List.getElem?_map, h]
    rfl
  rw [log.placed] at hmap
  obtain ⟨_, heq⟩ := List.getElem?_eq_some_iff.mp hmap
  rw [← heq, List.getElem_range]

theorem mem_indexed {i : ℕ} {entry : Entry} :
    (i, entry) ∈ log.indexed ↔ log.entries[i]? = some entry := by
  simp only [indexed, List.mem_map, Prod.mk.injEq]
  constructor
  · rintro ⟨found, hmem, rfl, rfl⟩
    obtain ⟨j, hj⟩ := List.getElem?_of_mem hmem
    rw [index_of_get hj]
    exact hj
  · intro h
    exact ⟨entry, List.mem_of_getElem? h, index_of_get h, rfl⟩

theorem ascending_indexed : Ascending log.indexed := by
  have hrange : (log.entries.map fun entry => entry.logId.index).Pairwise (· < ·) := by
    rw [log.placed]
    exact List.pairwise_lt_range
  exact List.pairwise_map.mpr (List.pairwise_map.mp hrange)

/-- The entries through index `n` are the first `n + 1`. -/
theorem take_indexed (n : ℕ) : log.indexed.take (n + 1) = through n log.indexed := by
  have hasc : Ascending (log.indexed.take (n + 1)) :=
    List.Pairwise.sublist (List.take_sublist _ _) ascending_indexed
  refine Ascending.ext hasc (ascending_indexed.filter _) ?_
  rintro ⟨i, entry⟩
  rw [mem_through, mem_indexed, indexed, ← List.map_take, List.mem_map]
  constructor
  · rintro ⟨found, hmem, heq⟩
    obtain ⟨rfl, rfl⟩ := Prod.mk.injEq .. ▸ heq
    obtain ⟨j, hj, rfl⟩ := List.mem_take_iff_getElem.mp hmem
    have hget : log.entries[j]? = some log.entries[j] := List.getElem?_eq_getElem (by omega)
    rw [index_of_get hget]
    exact ⟨hget, by omega⟩
  · rintro ⟨hget, hle⟩
    obtain ⟨hlt, rfl⟩ := List.getElem?_eq_some_iff.mp hget
    refine ⟨log.entries[i], List.mem_take_iff_getElem.mpr ⟨i, by omega, rfl⟩, ?_⟩
    rw [index_of_get hget]

theorem ascending_events : Ascending log.events := ascending_eventsOf ascending_indexed

/-- No event stands at index zero, where a reader that has read nothing has
its cursor. -/
theorem pos_of_mem_events {entry : ℕ × SignedEvent} (h : entry ∈ log.events) : 0 < entry.1 := by
  obtain ⟨i, event⟩ := entry
  obtain ⟨found, hmem, hevent⟩ := mem_eventsOf.mp h
  rcases Nat.eq_zero_or_pos i with rfl | hpos
  · have hhead : found ∈ log.entries.head? := by
      rw [List.head?_eq_getElem?]
      exact mem_indexed.mp hmem
    rw [log.configured found hhead] at hevent
    cases hevent
  · exact hpos

theorem through_zero_events : through 0 log.events = [] := by
  rw [List.eq_nil_iff_forall_not_mem]
  intro entry hentry
  obtain ⟨hmem, hle⟩ := mem_through.mp hentry
  exact absurd (pos_of_mem_events hmem) (by omega)

end CommittedLog

/-! ## Rows, and a page of them -/

/-- How an entry is stored. -/
structure Postcard where
  encode : Entry → List UInt8
  decode : List UInt8 → Except String Entry

/-- Every one of `entries` is decoded from what it was encoded to. -/
def Postcard.Decodes (postcard : Postcard) (entries : List Entry) : Prop :=
  ∀ entry ∈ entries, postcard.decode (postcard.encode entry) = .ok entry

/-- A node's copy of the log: encoded entries, by index. -/
structure LogStore where
  rows : OrdMap ℕ (List UInt8)

/-- A page of the log's membership events. -/
structure LogPage where
  events : Log SignedEvent
  /-- whether the page stopped at a limit with more of the range after it -/
  cutShort : Bool
  deriving DecidableEq

/-- One more than `n`, or the largest `u64` if there is no more. -/
def saturatingSucc (n : ℕ) : ℕ := min (n + 1) (2 ^ 64 - 1)

namespace LogStore

/-- The rows of `lo ..= hi`, in the order of their indices. -/
def range (store : LogStore) (lo hi : ℕ) : List (ℕ × List UInt8) :=
  store.rows.toList.filter fun row => lo ≤ row.1 ∧ row.1 ≤ hi

/-- The loop over the rows: the page so far, and the bytes its events take. -/
def readPage (postcard : Postcard) (atMost atMostBytes : ℕ) :
    List (ℕ × List UInt8) → LogPage → ℕ → Except String LogPage
  | [], page, _ => .ok page
  | (index, stored) :: rows, page, bytes =>
    match postcard.decode stored with
    | .error error => .error error
    | .ok entry =>
      match entry.payload with
      | .normal event =>
        let bytes := bytes + stored.length
        -- tested before the event is taken: there is more, so the page is cut
        if page.events.length = atMost ∨ (page.events ≠ [] ∧ bytes > atMostBytes) then
          .ok { page with cutShort := true }
        else
          readPage postcard atMost atMostBytes rows
            { page with events := page.events ++ [(index, event)] } bytes
      | _ => readPage postcard atMost atMostBytes rows page bytes

/-- The first membership events in `(after, upTo]`: at most `atMost` of them,
and no more than `atMostBytes` as stored, but always one if there is one. -/
def eventsAfter (postcard : Postcard) (store : LogStore) (after upTo atMost atMostBytes : ℕ) :
    Except String LogPage :=
  readPage postcard atMost atMostBytes (store.range (saturatingSucc after) upTo) ⟨[], false⟩ 0

variable {postcard : Postcard} {log : CommittedLog} {store : LogStore} {count : ℕ}

/-- An entry as a row. -/
def rowOf (postcard : Postcard) (entry : ℕ × Entry) : ℕ × List UInt8 :=
  (entry.1, postcard.encode entry.2)

/-- An entry without an event is passed over. -/
theorem readPage_skip {atMost atMostBytes index bytes : ℕ} {stored : List UInt8} {entry : Entry}
    {rows : List (ℕ × List UInt8)} {page : LogPage} (hdecode : postcard.decode stored = .ok entry)
    (hnone : entry.payload.event? = none) :
    readPage postcard atMost atMostBytes ((index, stored) :: rows) page bytes =
      readPage postcard atMost atMostBytes rows page bytes := by
  rw [readPage, hdecode]
  rcases hpayload : entry.payload with _ | event | membership
  · simp only [hpayload]
  · rw [hpayload] at hnone
    cases hnone
  · simp only [hpayload]

/-- An event is taken, or cuts the page. -/
theorem readPage_event {atMost atMostBytes index bytes : ℕ} {stored : List UInt8} {entry : Entry}
    {rows : List (ℕ × List UInt8)} {sofar : Log SignedEvent} {event : SignedEvent}
    (hdecode : postcard.decode stored = .ok entry) (hevent : entry.payload = .normal event) :
    readPage postcard atMost atMostBytes ((index, stored) :: rows) ⟨sofar, false⟩ bytes =
      if sofar.length = atMost ∨ (sofar ≠ [] ∧ bytes + stored.length > atMostBytes) then
        .ok ⟨sofar, true⟩
      else
        readPage postcard atMost atMostBytes rows ⟨sofar ++ [(index, event)], false⟩
          (bytes + stored.length) := by
  rw [readPage, hdecode]
  simp only [hevent]

/-- **What the loop takes**: of the events among the rows it is given, the first
ones, and a page that is cut short exactly when some are left. -/
theorem readPage_eq {atMost atMostBytes : ℕ} (hpos : 1 ≤ atMost) {entries : Log Entry}
    (hdecodes : ∀ entry ∈ entries, postcard.decode (postcard.encode entry.2) = .ok entry.2) :
    ∀ (sofar : Log SignedEvent) (bytes : ℕ), ∃ taken rest, eventsOf entries = taken ++ rest ∧
      readPage postcard atMost atMostBytes (entries.map (rowOf postcard)) ⟨sofar, false⟩ bytes =
        .ok ⟨sofar ++ taken, !rest.isEmpty⟩ ∧ (rest ≠ [] → sofar ++ taken ≠ []) := by
  induction entries with
  | nil =>
    intro sofar bytes
    exact ⟨[], [], rfl, by simp [readPage], fun h => absurd rfl h⟩
  | cons entry entries ih =>
    intro sofar bytes
    obtain ⟨index, entry⟩ := entry
    have hhead : postcard.decode (postcard.encode entry) = .ok entry :=
      hdecodes (index, entry) (List.mem_cons_self ..)
    replace ih := ih fun entry hmem => hdecodes entry (List.mem_cons_of_mem _ hmem)
    rw [List.map_cons, rowOf]
    rcases hevent : entry.payload.event? with _ | event
    · have hskip : eventsOf ((index, entry) :: entries) = eventsOf entries := by
        simp [eventsOf, hevent]
      rw [hskip, readPage_skip hhead hevent]
      exact ih sofar bytes
    · have htake : eventsOf ((index, entry) :: entries) = (index, event) :: eventsOf entries := by
        simp [eventsOf, hevent]
      rw [htake, readPage_event hhead (EntryPayload.eq_normal_of_event? hevent)]
      split
      · rename_i hfull
        refine ⟨[], (index, event) :: eventsOf entries, rfl, by simp, fun _ => ?_⟩
        rw [List.append_nil]
        rcases hfull with hfull | hfull
        · rintro rfl
          rw [List.length_nil] at hfull
          omega
        · exact hfull.1
      · obtain ⟨taken, rest, hsplit, hpage, hsome⟩ :=
          ih (sofar ++ [(index, event)]) (bytes + (postcard.encode entry).length)
        refine ⟨(index, event) :: taken, rest, by rw [hsplit]; rfl, ?_, fun _ => by simp⟩
        rw [hpage]
        simp

/-- The store holds the first `count` entries of the log. What else it holds is
not settled yet, and may be anything. -/
def Holds (postcard : Postcard) (store : LogStore) (log : CommittedLog) (count : ℕ) : Prop :=
  ∀ (i : ℕ) (entry : Entry), i < count → log.entries[i]? = some entry →
    store.rows[i]? = some (postcard.encode entry)

/-- Writes entries, each under its index, over what stands there. -/
def append (postcard : Postcard) (store : LogStore) (entries : List Entry) : LogStore :=
  ⟨store.rows.insertMany (entries.map fun entry => (entry.logId.index, postcard.encode entry))⟩

/-- Whatever a store held before, it holds the log once that is appended. -/
theorem holds_append (postcard : Postcard) (store : LogStore) (log : CommittedLog) :
    Holds postcard (store.append postcard log.entries) log log.entries.length := by
  intro i entry _ hget
  refine Std.ExtTreeMap.getElem?_insertMany_list_of_mem (k := i) (Std.ReflCmp.compare_self) ?_ ?_
  · have hasc : Ascending log.indexed := CommittedLog.ascending_indexed
    refine List.pairwise_map.mpr ((List.pairwise_map.mp hasc).imp ?_)
    intro a b hlt heq
    exact absurd (Nat.compare_eq_eq.mp heq) hlt.ne
  · exact List.mem_map.mpr
      ⟨entry, List.mem_of_getElem? hget, by rw [CommittedLog.index_of_get hget]⟩

/-- The rows of a range the store holds are the log's entries there. -/
theorem Holds.range_eq (h : Holds postcard store log count) (hcount : count ≤ log.entries.length)
    {lo hi : ℕ} (hhi : hi < count) :
    store.range lo hi =
      (log.indexed.filter fun entry => lo ≤ entry.1 ∧ entry.1 ≤ hi).map (rowOf postcard) := by
  apply Ascending.ext
  · refine Ascending.filter ?_ _
    refine List.Pairwise.imp ?_ (Std.ExtTreeMap.ordered_keys_toList (t := store.rows))
    intro a b hlt
    exact Nat.compare_eq_lt.mp hlt
  · exact List.pairwise_map.mpr (CommittedLog.ascending_indexed.filter _)
  · rintro ⟨i, stored⟩
    simp only [range, List.mem_filter, Std.ExtTreeMap.mem_toList_iff_getElem?_eq_some, List.mem_map,
      decide_eq_true_eq]
    constructor
    · rintro ⟨hrow, hrange⟩
      have hi : i < log.entries.length := by omega
      have hget : log.entries[i]? = some log.entries[i] := List.getElem?_eq_getElem hi
      rw [h i _ (by omega) hget] at hrow
      refine ⟨(i, log.entries[i]), ⟨CommittedLog.mem_indexed.mpr hget, hrange⟩, ?_⟩
      rw [rowOf, Option.some.inj hrow]
    · rintro ⟨⟨j, entry⟩, ⟨hin, hrange⟩, heq⟩
      obtain ⟨rfl, rfl⟩ := Prod.mk.injEq .. ▸ heq
      exact ⟨h j entry (by omega) (CommittedLog.mem_indexed.mp hin), hrange⟩

/-- **What a page promises.** A store that holds the log through `upTo` serves,
to whoever has read through `after`, the first of the events of the range; the
page is cut short exactly when it leaves some out, and is then not empty. -/
theorem eventsAfter_eq (h : Holds postcard store log count) (hcount : count ≤ log.entries.length)
    (hdecodes : postcard.Decodes log.entries) (after : ℕ) {upTo : ℕ} (hupTo : upTo < count)
    {atMost : ℕ} (hpos : 1 ≤ atMost) (atMostBytes : ℕ) :
    ∃ taken rest,
      (log.events.filter fun entry => saturatingSucc after ≤ entry.1 ∧ entry.1 ≤ upTo) =
        taken ++ rest ∧
      eventsAfter postcard store after upTo atMost atMostBytes = .ok ⟨taken, !rest.isEmpty⟩ ∧
      (rest ≠ [] → taken ≠ []) := by
  have hdec : ∀ entry ∈ log.indexed.filter
      (fun entry => saturatingSucc after ≤ entry.1 ∧ entry.1 ≤ upTo),
      postcard.decode (postcard.encode entry.2) = .ok entry.2 := by
    intro entry hmem
    exact hdecodes _ (List.mem_of_getElem?
      (CommittedLog.mem_indexed.mp (List.mem_of_mem_filter hmem)))
  obtain ⟨taken, rest, hsplit, hpage, hsome⟩ := readPage_eq hpos hdec [] 0 
  refine ⟨taken, rest, ?_, ?_, by simpa using hsome⟩
  · rw [← hsplit]
    exact (eventsOf_filter log.indexed fun i => saturatingSucc after ≤ i ∧ i ≤ upTo).symm
  · rw [eventsAfter, h.range_eq hcount hupTo, hpage]
    rfl

/-- Short of the largest index the range is what lies past the cursor. -/
theorem range_eq_between {after upTo : ℕ} (hafter : after < upTo)
    (hupTo : upTo < log.entries.length) :
    (log.events.filter fun entry => saturatingSucc after ≤ entry.1 ∧ entry.1 ≤ upTo) =
      between after upTo log.events := by
  have hbound := log.bounded
  have hsucc : saturatingSucc after = after + 1 := by
    rw [saturatingSucc]
    omega
  rw [hsucc]
  rfl

end LogStore

end Distlib
