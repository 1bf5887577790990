import Distlib.Lib.GuardedRun
import Distlib.Lib.StoredLog
import Distlib.Consensus.LogStore

/-!
# What Raft keeps on disk

Two tables and nothing clever: the log is encoded entries under their indices, and the vote,
the committed pointer and the id of the last purged entry stand under fixed keys of a second
table. Every call of openraft's is one transaction, and the node may stop, or the disk
refuse, at any of them; `Commit` is what became of it.

`RaftLog` is what Raft believes is there: the entries past the last purged one, at every
index from there on. It is by its type a log without a hole. Raft calls as its storage
contract says (`RaftLog.Legal`): it appends at the end, and purges no less than before.
The main result, `database_is_the_log`, is that whatever happens to the transactions, every
read answers as that log does. It rests on one transaction being one: a purge takes out the
rows and moves the watermark together, and of two transactions the second might be lost.

What a core node serves its followers is read from the same rows, through another handle.
`serves_what_raft_logged` puts the two together: what Raft has been told is stored is what
a follower is given.
-/

namespace Distlib

open IndexedLog GuardedRun

/-! ## The database -/

/-- What a node has voted for: a leader of a term, and whether a quorum granted it. -/
structure Vote where
  term : ℕ
  node : MemberId
  committed : Bool
  deriving DecidableEq

/-- How what is stored is encoded. -/
structure RaftCodec where
  entry : Postcard
  encodeVote : Vote → List UInt8
  decodeVote : List UInt8 → Except String Vote
  /-- of the two pointers, which are options as the caller's are -/
  encodePointer : Option LogId → List UInt8
  decodePointer : List UInt8 → Except String (Option LogId)

def VOTE : String := "vote"

def COMMITTED : String := "committed"

def LAST_PURGED : String := "last_purged"

/-- Both tables: the log, and everything else Raft persists. -/
structure RaftDb extends LogStore where
  kept : OrdMap String (List UInt8)

/-- Where a range begins or ends. -/
inductive RaftDb.Bound : Type where
  | included (index : ℕ)
  | excluded (index : ℕ)
  | unbounded
  deriving DecidableEq

/-- Whether an index is past the beginning of a range. -/
def RaftDb.Bound.isPast (lo : RaftDb.Bound) (index : ℕ) : Bool :=
  match lo with
  | .included lo => lo ≤ index
  | .excluded lo => lo < index
  | .unbounded => true

/-- Whether an index is before the end of a range. -/
def RaftDb.Bound.isBefore (hi : RaftDb.Bound) (index : ℕ) : Bool :=
  match hi with
  | .included hi => index ≤ hi
  | .excluded hi => index < hi
  | .unbounded => true

/-- Whether an index is between two bounds. -/
def RaftDb.Bound.contains (lo hi : RaftDb.Bound) (index : ℕ) : Bool :=
  lo.isPast index && hi.isBefore index

/-- What the log store says of the log when Raft starts. -/
structure LogState where
  lastPurgedLogId : Option LogId
  lastLogId : Option LogId
  deriving DecidableEq

namespace RaftDb

/-- A database whose tables have just been created. -/
def empty : RaftDb := ⟨⟨∅⟩, ∅⟩

/-! ### Writing -/

def writeMeta (db : RaftDb) (key : String) (encoded : List UInt8) : RaftDb :=
  { db with kept := db.kept.insert key encoded }

def saveVote (codec : RaftCodec) (db : RaftDb) (vote : Vote) : RaftDb :=
  db.writeMeta VOTE (codec.encodeVote vote)

def saveCommitted (codec : RaftCodec) (db : RaftDb) (committed : Option LogId) : RaftDb :=
  db.writeMeta COMMITTED (codec.encodePointer committed)

def append (codec : RaftCodec) (db : RaftDb) (entries : List Entry) : RaftDb :=
  { db with toLogStore := db.toLogStore.append codec.entry entries }

/-- Takes out `logId` too: the entry at that index is one being replaced. -/
def truncate (db : RaftDb) (logId : LogId) : RaftDb :=
  { db with rows := db.rows.filter fun index _ => index < logId.index }

/-- Entries and watermark in one transaction. -/
def purge (codec : RaftCodec) (db : RaftDb) (logId : LogId) : RaftDb :=
  { db with rows := db.rows.filter fun index _ => logId.index < index }.writeMeta LAST_PURGED
    (codec.encodePointer (some logId))

/-! ### Reading -/

/-- What stands under `key`, if anything does. -/
def readMeta {V : Type} (decode : List UInt8 → Except String V) (db : RaftDb) (key : String) :
    Except String (Option V) :=
  match db.kept[key]? with
  | none => .ok none
  | some stored => (decode stored).map some

/-- A vote is stored bare: a missing key already means that none was saved. -/
def readVote (codec : RaftCodec) (db : RaftDb) : Except String (Option Vote) :=
  db.readMeta codec.decodeVote VOTE

def readCommitted (codec : RaftCodec) (db : RaftDb) : Except String (Option LogId) :=
  (db.readMeta codec.decodePointer COMMITTED).map Option.join

def readLastPurged (codec : RaftCodec) (db : RaftDb) : Except String (Option LogId) :=
  (db.readMeta codec.decodePointer LAST_PURGED).map Option.join

/-- The id of the last entry still present, ignoring anything purged. -/
def lastLogId (codec : RaftCodec) (db : RaftDb) : Except String (Option LogId) :=
  match db.rows.toList.getLast? with
  | none => .ok none
  | some (_, stored) => (codec.entry.decode stored).map fun entry => some entry.logId

/-- With no entries present, the last id is the watermark: a log purged whole has not
restarted from nothing. -/
def getLogState (codec : RaftCodec) (db : RaftDb) : Except String LogState := do
  let lastPurgedLogId ← db.readLastPurged codec
  let last ← db.lastLogId codec
  return { lastPurgedLogId, lastLogId := last.or lastPurgedLogId }

/-- The entries of a range. -/
def tryGetLogEntries (codec : RaftCodec) (db : RaftDb) (lo hi : Bound) :
    Except String (List Entry) :=
  (db.rows.toList.filter fun row => Bound.contains lo hi row.1).mapM fun row =>
    codec.entry.decode row.2

end RaftDb

/-! ## The log Raft believes in -/

/-- The first index past what has been purged. -/
def firstAfter (purged : Option LogId) : ℕ := purged.elim 0 fun logId => logId.index + 1

/-- A log as Raft has it: what is left of it stands at every index from the watermark on. -/
structure RaftLog where
  vote : Option Vote
  committed : Option LogId
  purged : Option LogId
  entries : List Entry
  placed : entries.map (fun entry => entry.logId.index) =
    List.range' (firstAfter purged) entries.length

/-- One call of openraft's. -/
inductive RaftLog.Call : Type where
  | saveVote (vote : Vote)
  | saveCommitted (committed : Option LogId)
  | append (entries : List Entry)
  | truncate (logId : LogId)
  | purge (logId : LogId)

/-- What became of a call's transaction. -/
inductive RaftLog.Commit : Type where
  | failed
  | stored
  /-- stored, and the node stopped before the call could answer -/
  | unheard
  deriving DecidableEq

def RaftLog.Commit.durable : RaftLog.Commit → Bool
  | .failed => false
  | _ => true

namespace RaftLog

def empty : RaftLog := ⟨none, none, none, [], rfl⟩

def window (log : RaftLog) : Window Entry := ⟨firstAfter log.purged, log.entries⟩

/-- The id of the last entry, or the watermark if nothing stands past it. -/
def lastLogId (log : RaftLog) : Option LogId :=
  (log.entries.getLast?.map Entry.logId).or log.purged

/-- The entries after `entries` at the indices that come next. -/
def Follows (log : RaftLog) (entries : List Entry) : Prop :=
  entries.map (fun entry => entry.logId.index) = List.range' log.window.next entries.length

instance (log : RaftLog) (entries : List Entry) : Decidable (log.Follows entries) :=
  inferInstanceAs (Decidable (_ = _))

/-- **What Raft may ask of its log**: to append past the end without leaving an index out,
and to purge no less than it has. -/
def Legal (log : RaftLog) : Call → Prop
  | .append entries => log.Follows entries
  | .purge logId => firstAfter log.purged ≤ logId.index + 1
  | _ => True

instance (log : RaftLog) : DecidablePred log.Legal
  | .append _ => inferInstanceAs (Decidable (_ = _))
  | .purge _ => inferInstanceAs (Decidable (_ ≤ _))
  | .saveVote _ | .saveCommitted _ | .truncate _ => inferInstanceAs (Decidable True)

def append (log : RaftLog) (entries : List Entry) (h : log.Follows entries) : RaftLog :=
  { log with
    entries := log.entries ++ entries
    placed := by
      rw [List.map_append, log.placed, h, List.length_append]
      exact List.range'_append_1 }

def truncate (log : RaftLog) (logId : LogId) : RaftLog :=
  { log with
    entries := log.entries.take (logId.index - firstAfter log.purged)
    placed := by
      rw [List.map_take, log.placed, List.length_take]
      rcases le_total log.entries.length (logId.index - firstAfter log.purged) with hle | hge
      · rw [List.take_range'_of_length_le hle, min_eq_right hle]
      · rw [List.take_range'_of_length_ge hge, min_eq_left hge] }

def purge (log : RaftLog) (logId : LogId) (h : firstAfter log.purged ≤ logId.index + 1) :
    RaftLog :=
  { log with
    purged := some logId
    entries := log.entries.drop (logId.index + 1 - firstAfter log.purged)
    placed := by
      rw [List.map_drop, log.placed, List.drop_range', List.length_drop, mul_one]
      congr 1
      exact Nat.add_sub_cancel' h }

/-- What a call makes of the log. -/
def call (log : RaftLog) : Call → RaftLog
  | .saveVote vote => { log with vote := some vote }
  | .saveCommitted committed => { log with committed }
  | .append entries => if h : log.Follows entries then log.append entries h else log
  | .truncate logId => log.truncate logId
  | .purge logId =>
    if h : firstAfter log.purged ≤ logId.index + 1 then log.purge logId h else log

end RaftLog

/-- What a call makes of the database, if its transaction goes through. -/
def RaftDb.call (codec : RaftCodec) (db : RaftDb) : RaftLog.Call → RaftDb
  | .saveVote vote => db.saveVote codec vote
  | .saveCommitted committed => db.saveCommitted codec committed
  | .append entries => db.append codec entries
  | .truncate logId => db.truncate logId
  | .purge logId => db.purge codec logId

/-- What a call stores decodes to what was encoded. -/
def RaftCodec.Reads (codec : RaftCodec) : RaftLog.Call → Prop
  | .saveVote vote => codec.decodeVote (codec.encodeVote vote) = .ok vote
  | .saveCommitted committed => codec.decodePointer (codec.encodePointer committed) = .ok committed
  | .append entries => codec.entry.Decodes entries
  | .truncate _ => True
  | .purge logId => codec.decodePointer (codec.encodePointer (some logId)) = .ok (some logId)

instance (codec : RaftCodec) : DecidablePred codec.Reads
  | .saveVote _ => inferInstanceAs (Decidable (_ = _))
  | .saveCommitted _ => inferInstanceAs (Decidable (_ = _))
  | .append _ => inferInstanceAs (Decidable (∀ entry ∈ _, _ = _))
  | .truncate _ => inferInstanceAs (Decidable True)
  | .purge _ => inferInstanceAs (Decidable (_ = _))

/-! ## The database keeps the log -/

namespace RaftDb

variable {codec : RaftCodec} {db : RaftDb} {log : RaftLog}

/-- The rows are the log's entries, and what stands under the keys is what Raft saved. -/
structure Keeps (codec : RaftCodec) (db : RaftDb) (log : RaftLog) : Prop where
  rows : Window.Represents db.rows (log.window.map codec.entry.encode)
  decodes : codec.entry.Decodes log.entries
  vote : db.readVote codec = .ok log.vote
  committed : db.readCommitted codec = .ok log.committed
  purged : db.readLastPurged codec = .ok log.purged

theorem keeps_empty (codec : RaftCodec) : empty.Keeps codec .empty where
  rows := Window.represents_nil 0
  decodes := List.forall_mem_nil _
  vote := rfl
  committed := rfl
  purged := rfl

section Keys

variable {V : Type} {decode : List UInt8 → Except String V} {key : String} {encoded : List UInt8}

/-- What is written under a key is what is read under it, if it is read at all. -/
theorem readMeta_writeMeta {value : V} (h : decode encoded = .ok value) :
    (db.writeMeta key encoded).readMeta decode key = .ok (some value) := by
  have hget : (db.kept.insert key encoded)[key]? = some encoded :=
    Std.ExtTreeMap.getElem?_insert_self
  simp only [readMeta, writeMeta, hget, h, Except.map]

/-- Writing under one key leaves what stands under another. -/
theorem readMeta_writeMeta_of_ne {other : String} (h : key ≠ other) :
    (db.writeMeta key encoded).readMeta decode other = db.readMeta decode other := by
  have hget : (db.kept.insert key encoded)[other]? = db.kept[other]? := by
    rw [Std.ExtTreeMap.getElem?_insert, if_neg]
    rwa [Std.LawfulEqCmp.compare_eq_iff_eq]
  simp only [readMeta, writeMeta, hget]

end Keys

theorem vote_ne_committed : VOTE ≠ COMMITTED := by decide

theorem vote_ne_last_purged : VOTE ≠ LAST_PURGED := by decide

theorem committed_ne_last_purged : COMMITTED ≠ LAST_PURGED := by decide

/-! ### Calls -/

/-- A vote is saved, and nothing else is. -/
theorem Keeps.saveVote (h : db.Keeps codec log) {vote : Vote}
    (hreads : codec.Reads (.saveVote vote)) :
    (db.saveVote codec vote).Keeps codec { log with vote := some vote } where
  rows := h.rows
  decodes := h.decodes
  vote := readMeta_writeMeta hreads
  committed := by
    rw [← h.committed, readCommitted, readCommitted, RaftDb.saveVote,
      readMeta_writeMeta_of_ne vote_ne_committed]
  purged := by
    rw [← h.purged, readLastPurged, readLastPurged, RaftDb.saveVote,
      readMeta_writeMeta_of_ne vote_ne_last_purged]

/-- A pointer to what is committed is saved, or that there is none. -/
theorem Keeps.saveCommitted (h : db.Keeps codec log) {committed : Option LogId}
    (hreads : codec.Reads (.saveCommitted committed)) :
    (db.saveCommitted codec committed).Keeps codec { log with committed } where
  rows := h.rows
  decodes := h.decodes
  vote := by
    rw [← h.vote, readVote, readVote, RaftDb.saveCommitted,
      readMeta_writeMeta_of_ne vote_ne_committed.symm]
  committed := by
    rw [readCommitted, RaftDb.saveCommitted, readMeta_writeMeta hreads]
    rfl
  purged := by
    rw [← h.purged, readLastPurged, readLastPurged, RaftDb.saveCommitted,
      readMeta_writeMeta_of_ne committed_ne_last_purged]

/-- Entries are appended behind the last one, row by row. -/
theorem Keeps.append (h : db.Keeps codec log) {entries : List Entry} (hnext : log.Follows entries)
    (hreads : codec.Reads (.append entries)) :
    (db.append codec entries).Keeps codec (log.append entries hnext) where
  rows := by
    have hrows := h.rows.append
      (entries.map fun entry => (entry.logId.index, codec.entry.encode entry)) (by
        rw [List.map_map, Window.next_map, List.length_map]
        exact hnext)
    rw [List.map_map] at hrows
    exact (Window.map_append codec.entry.encode log.window entries) ▸ hrows
  decodes := List.forall_mem_append.mpr ⟨h.decodes, hreads⟩
  vote := h.vote
  committed := h.committed
  purged := h.purged

/-- What is truncated in the log is removed from the rows. -/
theorem Keeps.truncate (h : db.Keeps codec log) (logId : LogId) :
    (db.truncate logId).Keeps codec (log.truncate logId) where
  rows := (Window.map_truncate codec.entry.encode log.window logId.index) ▸
    h.rows.truncate logId.index
  decodes := fun entry hentry => h.decodes entry (List.mem_of_mem_take hentry)
  vote := h.vote
  committed := h.committed
  purged := h.purged

/-- What is purged is removed too, and the watermark is written with it. -/
theorem Keeps.purge (h : db.Keeps codec log) {logId : LogId}
    (hlegal : firstAfter log.purged ≤ logId.index + 1) (hreads : codec.Reads (.purge logId)) :
    (db.purge codec logId).Keeps codec (log.purge logId hlegal) where
  rows := by
    have hwindow : (log.purge logId hlegal).window = log.window.purge logId.index := by
      rw [RaftLog.window, RaftLog.window, Window.purge, max_eq_right hlegal]
      rfl
    rw [hwindow, Window.map_purge]
    exact h.rows.purge logId.index
  decodes := fun entry hentry => h.decodes entry (List.mem_of_mem_drop hentry)
  vote := by
    rw [readVote, RaftDb.purge, readMeta_writeMeta_of_ne vote_ne_last_purged.symm]
    exact h.vote
  committed := by
    rw [readCommitted, RaftDb.purge, readMeta_writeMeta_of_ne committed_ne_last_purged.symm]
    exact h.committed
  purged := by
    rw [readLastPurged, RaftDb.purge, readMeta_writeMeta hreads]
    rfl

/-- **Every call that goes through does to the rows what Raft means it to do to the log.** -/
theorem Keeps.call (h : db.Keeps codec log) {call : RaftLog.Call} (hlegal : log.Legal call)
    (hreads : codec.Reads call) : (db.call codec call).Keeps codec (log.call call) := by
  cases call with
  | saveVote vote => exact h.saveVote hreads
  | saveCommitted committed => exact h.saveCommitted hreads
  | append entries =>
    rw [RaftLog.call, dif_pos (show log.Follows entries from hlegal)]
    exact h.append hlegal hreads
  | truncate logId => exact h.truncate logId
  | purge logId =>
    rw [RaftLog.call, dif_pos (show firstAfter log.purged ≤ logId.index + 1 from hlegal)]
    exact h.purge hlegal hreads

/-! ### Reads -/

/-- The rows in their order are the entries, encoded. -/
theorem Keeps.toList_eq (h : db.Keeps codec log) :
    db.rows.toList =
      log.entries.map fun entry => (entry.logId.index, codec.entry.encode entry) := by
  rw [h.rows.toList_eq, Window.indexed_map, Window.indexed_eq_map (w := log.window) log.placed,
    List.map_map]
  rfl

/-- The last row is the last entry. -/
theorem Keeps.lastLogId_eq (h : db.Keeps codec log) :
    db.lastLogId codec = .ok (log.entries.getLast?.map Entry.logId) := by
  rw [lastLogId, h.toList_eq, List.getLast?_map]
  rcases hlast : log.entries.getLast? with _ | entry
  · rfl
  · have hdecode := h.decodes entry (List.mem_of_getLast? hlast)
    simp only [Option.map_some, hdecode, Except.map]

/-- The rows of a range, as the serving handle reads them. -/
theorem Keeps.range_eq (h : db.Keeps codec log) (lo hi : ℕ) :
    db.toLogStore.range lo hi =
      (log.window.indexed.filter fun entry => lo ≤ entry.1 ∧ entry.1 ≤ hi).map
        (LogStore.rowOf codec.entry) := by
  rw [LogStore.range, h.rows.toList_eq, Window.indexed_map, List.filter_map]
  rfl

theorem mapM_decode {entries : List Entry} (h : codec.entry.Decodes entries) :
    (entries.map fun entry => (entry.logId.index, codec.entry.encode entry)).mapM
      (fun row => codec.entry.decode row.2) = .ok entries := by
  induction entries with
  | nil => rfl
  | cons entry rest ih =>
    obtain ⟨hfirst, hrest⟩ := List.forall_mem_cons.mp h
    rw [List.map_cons, List.mapM_cons, hfirst, ih hrest]
    rfl

/-- A range of rows is a range of the log. -/
theorem Keeps.tryGetLogEntries_eq (h : db.Keeps codec log) (lo hi : Bound) :
    db.tryGetLogEntries codec lo hi =
      .ok (log.entries.filter fun entry => Bound.contains lo hi entry.logId.index) := by
  rw [tryGetLogEntries, h.toList_eq, List.filter_map]
  exact mapM_decode fun entry hentry => h.decodes entry (List.mem_of_mem_filter hentry)

end RaftDb

/-! ## Whole runs -/

namespace RaftLog

variable {codec : RaftCodec} {db : RaftDb} {log : RaftLog}

/-- A range past the watermark is read without a hole. -/
theorem map_index_filter (log : RaftLog) {lo hi : ℕ} (hlo : firstAfter log.purged ≤ lo)
    (hhi : hi < log.window.next) :
    (log.entries.filter fun entry =>
        RaftDb.Bound.contains (.included lo) (.included hi) entry.logId.index).map
      (fun entry => entry.logId.index) = List.range' lo (hi + 1 - lo) := by
  have hrange : (List.range' (firstAfter log.purged) log.entries.length).filter
      (fun i => lo ≤ i && i ≤ hi) = List.range' lo (hi + 1 - lo) := Window.filter_range' hlo hhi
  rw [← hrange, ← log.placed, List.filter_map]
  rfl

/-- What a run of calls leaves in the database, and what Raft believes it left. -/
theorem keeps_run {attempts : List (Call × Commit)}
    (hreads : ∀ tried ∈ attempts, codec.Reads tried.1)
    (hlegal : Along (attempt RaftLog.call Commit.durable) (fun log tried => log.Legal tried.1)
      .empty attempts) :
    (exec (attempt (RaftDb.call codec) Commit.durable) .empty attempts).Keeps codec
      (exec (attempt RaftLog.call Commit.durable) .empty attempts) :=
  simulates
    (attempt_simulates (fun log call => log.Legal call ∧ codec.Reads call)
      fun _ _ _ hkeeps hok => hkeeps.call hok.1 hok.2)
    (RaftDb.keeps_empty codec) (hlegal.and_forall hreads)

/-- **Every read answers as Raft's log does.** In whatever way each transaction ends, and as
long as Raft calls as its storage contract says: the watermark and the last id are the
log's, so are the vote and the committed pointer, every range is read as the log has it, and
a range past the watermark is read without a hole. -/
theorem database_is_the_log (codec : RaftCodec) (attempts : List (Call × Commit))
    (hreads : ∀ tried ∈ attempts, codec.Reads tried.1)
    (hlegal : Along (attempt RaftLog.call Commit.durable) (fun log tried => log.Legal tried.1)
      .empty attempts) :
    let db := exec (attempt (RaftDb.call codec) Commit.durable) .empty attempts
    let log := exec (attempt RaftLog.call Commit.durable) .empty attempts
    db.getLogState codec = .ok ⟨log.purged, log.lastLogId⟩ ∧
      db.readVote codec = .ok log.vote ∧ db.readCommitted codec = .ok log.committed ∧
      (∀ lo hi, db.tryGetLogEntries codec lo hi =
        .ok (log.entries.filter fun entry => RaftDb.Bound.contains lo hi entry.logId.index)) ∧
      ∀ lo hi, firstAfter log.purged ≤ lo → hi < log.window.next →
        ∃ entries, db.tryGetLogEntries codec (.included lo) (.included hi) = .ok entries ∧
          entries.map (fun entry => entry.logId.index) = List.range' lo (hi + 1 - lo) := by
  intro db log
  have hkeeps : db.Keeps codec log := keeps_run hreads hlegal
  refine ⟨?_, hkeeps.vote, hkeeps.committed, hkeeps.tryGetLogEntries_eq, ?_⟩
  · rw [RaftDb.getLogState, hkeeps.purged, hkeeps.lastLogId_eq]
    rfl
  · intro lo hi hlo hhi
    exact ⟨_, hkeeps.tryGetLogEntries_eq _ _, log.map_index_filter hlo hhi⟩

/-! ### A log whose end was replaced and whose beginning is gone -/

def initialised : Entry := ⟨⟨1, alice, 0⟩, .membership ⟨[{alice}], ∅⟩⟩

def foundedEvent : SignedEvent :=
  .signedBy alice 0 (.groupFounded ⟨9⟩ [(⟨alice, "alice"⟩, default)] default)

def foundedEntry : Entry := ⟨⟨1, alice, 1⟩, .normal foundedEvent⟩

def lostBlank : Entry := ⟨⟨1, alice, 2⟩, .blank⟩

def keptBlank : Entry := ⟨⟨2, alice, 2⟩, .blank⟩

/-- An encoding that writes the numbers of an id, and knows the entries by theirs. -/
def numbering : RaftCodec where
  entry :=
    { encode := fun entry => [UInt8.ofNat entry.logId.term, UInt8.ofNat entry.logId.index]
      decode := fun
        | [1, 0] => .ok initialised
        | [1, 1] => .ok foundedEntry
        | [1, 2] => .ok lostBlank
        | [2, 2] => .ok keptBlank
        | _ => .error "Hit the end of buffer" }
  encodeVote vote := [UInt8.ofNat vote.term, if vote.committed then 1 else 0]
  decodeVote
    | [term, committed] => .ok ⟨term.toNat, alice, committed == 1⟩
    | _ => .error "Hit the end of buffer"
  encodePointer
    | none => [0]
    | some logId => [1, UInt8.ofNat logId.term, UInt8.ofNat logId.index]
  decodePointer
    | [0] => .ok none
    | [1, term, index] => .ok (some ⟨term.toNat, alice, index.toNat⟩)
    | _ => .error "Hit the end of buffer"

/-- An entry is appended as the node stops, and replaced by the next leader's; the vote and
the purge go through at the second attempt. -/
def purgedRun : List (Call × Commit) :=
  [(.append [initialised, foundedEntry], .stored), (.append [lostBlank], .unheard),
    (.saveVote ⟨2, alice, true⟩, .failed), (.saveVote ⟨2, alice, true⟩, .stored),
    (.truncate lostBlank.logId, .stored), (.append [keptBlank], .stored),
    (.saveCommitted (some foundedEntry.logId), .stored), (.purge initialised.logId, .failed),
    (.purge initialised.logId, .stored)]

theorem numbering_reads : ∀ tried ∈ purgedRun, numbering.Reads tried.1 := by
  decide +kernel

theorem legal_purgedRun :
    Along (attempt RaftLog.call Commit.durable) (fun log tried => log.Legal tried.1) .empty
      purgedRun := by
  decide +kernel

/-- Nothing but the entries of the second leader past the watermark is read back. -/
theorem database_is_the_log_purged :
    let db := exec (attempt (RaftDb.call numbering) Commit.durable) .empty purgedRun
    db.getLogState numbering = .ok ⟨some initialised.logId, some keptBlank.logId⟩ ∧
      db.readVote numbering = .ok (some ⟨2, alice, true⟩) ∧
      db.tryGetLogEntries numbering .unbounded .unbounded = .ok [foundedEntry, keptBlank] := by
  intro db
  obtain ⟨hstate, hvote, -, hentries, -⟩ :=
    database_is_the_log numbering purgedRun numbering_reads legal_purgedRun
  exact ⟨hstate, hvote, hentries .unbounded .unbounded⟩

/-- **A follower is served what Raft has logged**: after every such run, a page read for
somebody who has read through `after` holds the first of the events that Raft's log has
past it and up to `upTo`, and is cut short exactly when it leaves some of them out. -/
theorem serves_what_raft_logged (codec : RaftCodec) (attempts : List (Call × Commit))
    (hreads : ∀ tried ∈ attempts, codec.Reads tried.1)
    (hlegal : Along (attempt RaftLog.call Commit.durable) (fun log tried => log.Legal tried.1)
      .empty attempts) (after upTo : ℕ) {atMost : ℕ} (hpos : 1 ≤ atMost) (atMostBytes : ℕ) :
    let db := exec (attempt (RaftDb.call codec) Commit.durable) .empty attempts
    let log := exec (attempt RaftLog.call Commit.durable) .empty attempts
    ∃ taken rest,
      ((eventsOf log.window.indexed).filter fun entry =>
        saturatingSucc after ≤ entry.1 ∧ entry.1 ≤ upTo) = taken ++ rest ∧
      db.eventsAfter codec.entry after upTo atMost atMostBytes = .ok ⟨taken, !rest.isEmpty⟩ ∧
      (rest ≠ [] → taken ≠ []) := by
  intro db log
  have hkeeps : db.Keeps codec log := keeps_run hreads hlegal
  have hdecodes : ∀ entry ∈ log.window.indexed.filter
      (fun entry => saturatingSucc after ≤ entry.1 ∧ entry.1 ≤ upTo),
      codec.entry.decode (codec.entry.encode entry.2) = .ok entry.2 := by
    intro entry hentry
    exact hkeeps.decodes _ (Window.mem_entries (List.mem_of_mem_filter hentry))
  obtain ⟨taken, rest, hsplit, hpage, hsome⟩ := LogStore.readPage_eq hpos hdecodes [] 0
  refine ⟨taken, rest, ?_, ?_, by simpa using hsome⟩
  · rw [← hsplit, eventsOf_filter _ fun i => saturatingSucc after ≤ i ∧ i ≤ upTo]
  · rw [LogStore.eventsAfter, hkeeps.range_eq, hpage]
    rfl

/-- A reader that has read nothing is served the founding, which is all there is to serve. -/
theorem serves_what_raft_logged_purged :
    ∃ taken rest, [(1, foundedEvent)] = taken ++ rest ∧
      (exec (attempt (RaftDb.call numbering) Commit.durable) .empty purgedRun).eventsAfter
          numbering.entry 0 2 1 0 = .ok ⟨taken, !rest.isEmpty⟩ ∧ (rest ≠ [] → taken ≠ []) :=
  serves_what_raft_logged numbering purgedRun numbering_reads legal_purgedRun 0 2 le_rfl 0

end RaftLog

end Distlib
