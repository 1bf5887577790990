import Distlib.Lib.GuardedRun
import Distlib.Store.Reads

/-!
# The projection beside the tasks that write

Tasks that hear of the document record what each event is about in the pending batch,
and wake the projection if that is news. The projection takes the whole batch, reads
every unit in it again and writes its rows; when content has arrived it reads again
whatever it last left incomplete, since such a note names nobody. Nothing here is one
step: a change of the document and its note are apart, so are a note and the wake that
follows it, the reader's mark and its look at the batch, and the queries of one read,
with the content of each entry asked for on its own.

The world below has all of them as steps of their own, in any order, with the replays
of a start, of a reindex and of a change of the members. Beside what the program has it
keeps what the results speak of: the notes recorded so far, the batches taken and the
notes each carries, what each unit was last projected from, and for each unit every
document there has been since the latest change about it.

The first of its invariants is here: a note is in the pending batch or in exactly one
that was taken, and the reader does not wait over a batch nobody will wake it for
(`Noting`). What the reader keeps is in `Distlib.Store.InStep`.
-/

namespace Distlib

open GuardedRun

namespace InStep

/-! ## The world -/

/-- Where the reader is. -/
inductive Reader : Type where
  /-- about to list everything, for a replay -/
  | listing
  /-- about to mark what woke it as seen -/
  | marking
  /-- about to look at the batch -/
  | looking
  /-- it found nothing, and waits for a wake it has not seen -/
  | waiting
  /-- what is left of the batch, and the read under way -/
  | working (todo : List WorkUnit) (reading : Option OpenRead)
  deriving DecidableEq

def Reader.todo : Reader → List WorkUnit
  | .working todo _ => todo
  | _ => []

def Reader.reading : Reader → Option OpenRead
  | .working _ reading => reading
  | _ => none

/-- Whether the reader is at its select, where another arm may be taken. -/
def Reader.atSelect : Reader → Bool
  | .marking | .waiting => true
  | _ => false

/-- What a unit was projected from, and the members the writer had been told of then. -/
structure Projected where
  answered : List (List Answered)
  members : Finset MemberId

structure World (serde : Serde) where
  catalogue : Catalogue
  /-- changes and arrivals that were not noted yet -/
  owed : List Noted
  /-- tasks between their note, which was news, and the wake -/
  waking : ℕ
  pending : Batch
  /-- the count of wakes -/
  version : ℕ
  /-- the count the reader has marked seen -/
  seen : ℕ
  reader : Reader
  writer : ReadModelWriter serde
  /-- every note recorded so far, in order -/
  noted : List Noted
  /-- every batch taken, with the notes recorded since the one before -/
  taken : List (Batch × List Noted)
  /-- the notes recorded since the last batch was taken -/
  unread : List Noted
  /-- every document there has been since the latest change about a unit -/
  since : WorkUnit → List Document
  /-- what each unit was last projected from -/
  last : WorkUnit → Option Projected
  /-- what the last replay listed -/
  replayed : List WorkUnit

inductive Happening : Type where
  /-- an entry is written or deleted at a key, and the document is another -/
  | change (key : Bytes) (document : Document)
  /-- some content lands -/
  | arrive (hash : ContentHash)
  /-- a note that content may have landed, with none that did -/
  | nudge
  /-- the `i`-th note owed is recorded -/
  | record (i : ℕ)
  /-- a task wakes the reader for what it recorded -/
  | wake
  /-- the reader takes its next step -/
  | advance
  /-- the reader is asked for a reindex -/
  | reindex
  /-- the reader hears of the group's members -/
  | members (members : Finset MemberId)

variable {serde : Serde}

/-- The document opens, with a projection that has read nothing yet. -/
def World.start (catalogue : Catalogue) (owed : List Noted) (writer : ReadModelWriter serde) :
    World serde where
  catalogue := catalogue
  owed := owed
  waking := 0
  pending := .empty
  version := 0
  seen := 0
  reader := .listing
  writer := writer
  noted := []
  taken := []
  unread := []
  since _ := [catalogue.document]
  last _ := none
  replayed := []

section Step

variable (spell : Spellings) (iroh : Iroh)

/-- One step of a read: the content of the next entry is asked for, a query is done
with, the next one is asked, or what was read is written. -/
def World.read (world : World serde) (todo : List WorkUnit) (reading : OpenRead) : World serde :=
  match reading.asking with
  | some (entry :: left, looked) =>
    let looked := looked ++ [(entry, world.catalogue.content iroh entry)]
    { world with reader := .working todo (some { reading with asking := some (left, looked) }) }
  | some ([], looked) =>
    let reading := { reading with answered := reading.answered ++ [looked], asking := none }
    { world with reader := .working todo (some reading) }
  | none =>
    match nextAsk spell iroh reading.unit reading.answered with
    | some ask =>
      let entries := ask.entries world.catalogue.document
      let reading :=
        if ask.wantsContent then { reading with asking := some (entries, []) }
        else { reading with answered := reading.answered ++ [entries.map fun entry => (entry, none)] }
      { world with reader := .working todo (some reading) }
    | none =>
      { world with
        writer := takeUnit spell iroh world.writer reading.answered reading.unit
        last := Function.update world.last reading.unit
          (some ⟨reading.answered, world.writer.members⟩)
        reader := .working todo none }

/-- The reader's next step. -/
def World.advance (world : World serde) : World serde :=
  match world.reader with
  | .listing =>
    { world with
      reader := .working (listed spell iroh world.catalogue) none
      replayed := listed spell iroh world.catalogue }
  | .marking => { world with seen := world.version, reader := .looking }
  | .looking =>
    if world.pending.isEmpty then { world with reader := .waiting }
    else
      { world with
        pending := .empty
        taken := world.taken ++ [(world.pending, world.unread)]
        unread := []
        reader := .working (jobs world.writer world.pending) none }
  | .waiting =>
    if world.seen < world.version then { world with seen := world.version, reader := .marking }
    else world
  | .working [] none => { world with reader := .marking }
  | .working (unit :: todo) none => { world with reader := .working todo (some ⟨unit, [], none⟩) }
  | .working todo (some reading) => world.read spell iroh todo reading

/-- One note recorded. -/
def World.record (world : World serde) (i : ℕ) : World serde :=
  match world.owed[i]? with
  | none => world
  | some noted =>
    { world with
      owed := world.owed.eraseIdx i
      pending := (note spell world.pending noted).1
      waking := if (note spell world.pending noted).2 then world.waking + 1 else world.waking
      noted := world.noted ++ [noted]
      unread := world.unread ++ [noted] }

/-- The members, at the reader's select: it replays everything if they are others. -/
def World.hear (world : World serde) (members : Finset MemberId) : World serde :=
  if members = world.writer.members then { world with reader := .marking }
  else { world with writer := { world.writer with members }, reader := .listing }

def World.step (world : World serde) : Happening → World serde
  | .change key document =>
    { world with
      catalogue := { world.catalogue with document }
      owed := world.owed ++ [.entry key]
      since := fun unit =>
        if unitOf spell key = some unit then [document] else document :: world.since unit }
  | .arrive hash =>
    { world with
      catalogue := { world.catalogue with here := insert hash world.catalogue.here }
      owed := world.owed ++ [.content] }
  | .nudge => { world with owed := world.owed ++ [.content] }
  | .record i => world.record spell i
  | .wake =>
    if world.waking = 0 then world
    else { world with waking := world.waking - 1, version := world.version + 1 }
  | .advance => world.advance spell iroh
  | .reindex => if world.reader.atSelect then { world with reader := .listing } else world
  | .members members => if world.reader.atSelect then world.hear members else world

/-! ## Notes and wakes -/

/-- A batch has exactly what some notes are about. -/
def Carries (batch : Batch) (notes : List Noted) : Prop :=
  (∀ unit, batch.Has unit ↔ ∃ noted ∈ notes, noted.unit spell = some unit) ∧
    (batch.contentArrived = true ↔ Noted.content ∈ notes)

variable {spell iroh}

/-- A batch of nothing carries no notes. -/
theorem Carries.empty : Carries spell Batch.empty [] :=
  ⟨fun unit => ⟨fun h => absurd h (Batch.not_has_empty unit), by simp⟩, by simp [Batch.empty]⟩

/-- One more note, and the batch has what it is about. -/
theorem Carries.note {batch : Batch} {notes : List Noted} (h : Carries spell batch notes)
    (noted : Noted) : Carries spell (note spell batch noted).1 (notes ++ [noted]) := by
  obtain ⟨hhas, hcontent⟩ := h
  refine ⟨fun unit => ?_, ?_⟩
  · rw [batch.has_note, hhas unit]
    simp only [List.mem_append, List.mem_singleton, or_and_right, exists_or, exists_eq_left, or_comm]
  · rw [batch.contentArrived_note, hcontent, List.mem_append, List.mem_singleton, or_comm, eq_comm]

variable (spell) in
/-- **Every note is in one batch, and nobody sleeps over one.** -/
structure Noting (world : World serde) : Prop where
  seen_le : world.seen ≤ world.version
  stirred : world.reader = .waiting → world.pending.isEmpty = false →
    world.seen < world.version ∨ 0 < world.waking
  inOrder : world.noted = world.taken.flatMap Prod.snd ++ world.unread
  taken : ∀ batch ∈ world.taken, Carries spell batch.1 batch.2
  pending : Carries spell world.pending world.unread

namespace Noting

variable {world : World serde}

/-- Nothing is noted at the start, and nothing waits. -/
theorem start (catalogue : Catalogue) (owed : List Noted) (writer : ReadModelWriter serde) :
    Noting spell (World.start catalogue owed writer) :=
  ⟨le_rfl, nofun, rfl, nofun, .empty⟩

/-- Where the reader is does not matter, unless it begins to wait. -/
theorem reader (h : Noting spell world) {after : Reader} (hafter : after ≠ .waiting)
    (writer : ReadModelWriter serde) (last : WorkUnit → Option Projected) :
    Noting spell { world with reader := after, writer, last } :=
  ⟨h.seen_le, fun hwaits => absurd hwaits hafter, h.inOrder, h.taken, h.pending⟩

/-- A note is put into the batch that waits, and the reader is stirred. -/
theorem record (h : Noting spell world) (i : ℕ) : Noting spell (world.record spell i) := by
  rw [World.record]
  rcases world.owed[i]? with _ | noted
  · exact h
  · refine ⟨h.seen_le, fun hwaits hnonempty => ?_, ?_, h.taken, h.pending.note noted⟩
    · -- a note that is no news was made of a batch that was not empty before
      rcases hbefore : world.pending.isEmpty with _ | _
      · rcases h.stirred hwaits hbefore with hunseen | hwaking
        · exact Or.inl hunseen
        · right
          dsimp only
          split <;> omega
      · right
        dsimp only
        rw [if_pos (Batch.note_news_of_empty hbefore hnonempty)]
        exact Nat.succ_pos _
    · dsimp only
      rw [h.inOrder, List.append_assoc]

theorem wake (h : Noting spell world) :
    Noting spell { world with waking := world.waking - 1, version := world.version + 1 } :=
  ⟨h.seen_le.trans (Nat.le_succ _), fun _ _ => Or.inl (Nat.lt_succ_of_le h.seen_le), h.inOrder,
    h.taken, h.pending⟩

/-- To read the document for what a batch says is neither to note nor to take. -/
theorem read (h : Noting spell world) (todo : List WorkUnit) (reading : OpenRead) :
    Noting spell (world.read spell iroh todo reading) := by
  rw [World.read]
  split
  · exact h.reader (by nofun) world.writer world.last
  · exact h.reader (by nofun) world.writer world.last
  · split
    · exact h.reader (by nofun) world.writer world.last
    · exact h.reader (by nofun) _ _

/-- The reader takes what waits as one batch, whole, and the next one begins empty. -/
theorem advance (h : Noting spell world) : Noting spell (world.advance spell iroh) := by
  rw [World.advance]
  split
  · exact ⟨h.seen_le, nofun, h.inOrder, h.taken, h.pending⟩
  · exact ⟨le_rfl, nofun, h.inOrder, h.taken, h.pending⟩
  · split
    · rename_i hempty
      exact ⟨h.seen_le, fun _ hnonempty => absurd (hempty.symm.trans hnonempty) (by decide),
        h.inOrder, h.taken, h.pending⟩
    · refine ⟨h.seen_le, nofun, ?_, ?_, .empty⟩
      · dsimp only
        rw [h.inOrder, List.flatMap_append, List.append_nil]
        simp
      · intro batch hbatch
        rcases List.mem_append.mp hbatch with hold | hnew
        · exact h.taken batch hold
        · obtain rfl := List.mem_singleton.mp hnew
          exact h.pending
  · split
    · exact ⟨le_rfl, nofun, h.inOrder, h.taken, h.pending⟩
    · exact h
  · exact h.reader (by nofun) world.writer world.last
  · exact h.reader (by nofun) world.writer world.last
  · exact h.read _ _

/-- **Every note stays in one batch**, whatever happens. -/
theorem step (h : Noting spell world) (happening : Happening) :
    Noting spell (world.step spell iroh happening) := by
  cases happening with
  | change key document => exact ⟨h.seen_le, h.stirred, h.inOrder, h.taken, h.pending⟩
  | arrive hash => exact ⟨h.seen_le, h.stirred, h.inOrder, h.taken, h.pending⟩
  | nudge => exact ⟨h.seen_le, h.stirred, h.inOrder, h.taken, h.pending⟩
  | record i => exact h.record i
  | wake =>
    rw [World.step]
    split
    · exact h
    · exact h.wake
  | advance => exact h.advance
  | reindex =>
    rw [World.step]
    split
    · exact h.reader (by nofun) world.writer world.last
    · exact h
  | members members =>
    rw [World.step]
    split
    · rw [World.hear]
      split
      · exact h.reader (by nofun) world.writer world.last
      · exact h.reader (by nofun) _ world.last
    · exact h

end Noting

end Step

end InStep

end Distlib
