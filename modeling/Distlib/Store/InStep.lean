import Distlib.Store.Batches

/-!
# The read model keeps in step

A unit that was noted is still due, or is being read, or was last read from documents
that have every change about it; and what it was last read without is still away, or a
note that content arrived is on its way, or it is to be read again (`Keeping`). The tasks
beside the reader only add to what is due (`Onward.keeping`); the reader's steps are
taken one by one. When everything is noted and the reader waits over an empty batch,
nothing is due and nothing is being read, so the rows are up to date (`in_step`).

An item read as absent is skipped, not emptied: items are never deleted, and the skip is
there for a rating that arrives before its item. So the rows of an item whose entries are
all deleted stay (`Sample.emptied_item_stays`), and `in_step` speaks of the others.
-/

namespace Distlib

open GuardedRun

namespace InStep

variable {serde : Serde} {spell : Spellings} {iroh : Iroh}

/-! ## What is known of a read -/

section OpenReads

variable (spell iroh) in
/-- Every query of a read so far was answered from a document with `P`. -/
def From (reading : OpenRead) (P : Document → Prop) : Prop :=
  FromDocs spell iroh P reading.unit reading.answered ∧
    ∀ left looked, reading.asking = some (left, looked) →
      ∃ ask, nextAsk spell iroh reading.unit reading.answered = some ask ∧
        ask.wantsContent = true ∧
          ∃ document, P document ∧ looked.map Prod.fst ++ left = ask.entries document

variable (spell iroh) in
/-- Every answer of a read so far whose content was asked for has `P`. -/
def Hears (reading : OpenRead) (P : Answered → Prop) : Prop :=
  Contents spell iroh P reading.unit reading.answered ∧
    ∀ left looked, reading.asking = some (left, looked) → ∀ answer ∈ looked, P answer

variable {reading : OpenRead} {P : Document → Prop} {Q : Answered → Prop}

theorem From.imp {P' : Document → Prop} (h : From spell iroh reading P)
    (himp : ∀ document, P document → P' document) : From spell iroh reading P' := by
  refine ⟨h.1.imp himp, fun left looked hasking => ?_⟩
  obtain ⟨ask, hask, hwants, document, hdocument, hentries⟩ := h.2 left looked hasking
  exact ⟨ask, hask, hwants, document, himp document hdocument, hentries⟩

theorem Hears.imp {Q' : Answered → Prop} (h : Hears spell iroh reading Q)
    (himp : ∀ answer, Q answer → Q' answer) : Hears spell iroh reading Q' :=
  ⟨h.1.imp himp, fun left looked hasking answer hmem => himp answer (h.2 left looked hasking answer hmem)⟩

/-- One more entry is looked at. -/
theorem From.look {entry : DocEntry} {left : List DocEntry} {looked : List Answered}
    (h : From spell iroh reading P) (hasking : reading.asking = some (entry :: left, looked))
    (value : Option Bytes) :
    From spell iroh { reading with asking := some (left, looked ++ [(entry, value)]) } P := by
  refine ⟨h.1, fun left' looked' heq => ?_⟩
  obtain ⟨rfl, rfl⟩ := Prod.mk.inj (Option.some.inj heq)
  obtain ⟨ask, hask, hwants, document, hdocument, hentries⟩ := h.2 _ _ hasking
  refine ⟨ask, hask, hwants, document, hdocument, ?_⟩
  rw [← hentries, List.map_append, List.append_assoc]
  rfl

theorem Hears.look {entry : DocEntry} {left : List DocEntry} {looked : List Answered}
    (h : Hears spell iroh reading Q) (hasking : reading.asking = some (entry :: left, looked))
    {value : Option Bytes} (hvalue : Q (entry, value)) :
    Hears spell iroh { reading with asking := some (left, looked ++ [(entry, value)]) } Q := by
  refine ⟨h.1, fun left' looked' heq answer hmem => ?_⟩
  obtain ⟨rfl, rfl⟩ := Prod.mk.inj (Option.some.inj heq)
  rcases List.mem_append.mp hmem with hold | hnew
  · exact h.2 _ _ hasking answer hold
  · obtain rfl := List.mem_singleton.mp hnew
    exact hvalue

/-- A query is done with. -/
theorem From.close {looked : List Answered} (h : From spell iroh reading P)
    (hasking : reading.asking = some ([], looked)) :
    From spell iroh { reading with answered := reading.answered ++ [looked], asking := none } P := by
  obtain ⟨ask, hask, -, document, hdocument, hentries⟩ := h.2 _ _ hasking
  rw [List.append_nil] at hentries
  exact ⟨h.1.snoc hask hdocument hentries, nofun⟩

theorem Hears.close {looked : List Answered} {ask : Ask} (h : Hears spell iroh reading Q)
    (hasking : reading.asking = some ([], looked))
    (hask : nextAsk spell iroh reading.unit reading.answered = some ask) :
    Hears spell iroh { reading with answered := reading.answered ++ [looked], asking := none } Q :=
  ⟨h.1.snoc hask fun _ => h.2 _ _ hasking, nofun⟩

/-- A query is asked. -/
theorem From.ask {ask : Ask} {document : Document} (h : From spell iroh reading P)
    (hask : nextAsk spell iroh reading.unit reading.answered = some ask)
    (hwants : ask.wantsContent = true) (hdocument : P document) :
    From spell iroh { reading with asking := some (ask.entries document, []) } P := by
  refine ⟨h.1, fun left looked heq => ?_⟩
  obtain ⟨rfl, rfl⟩ := Prod.mk.inj (Option.some.inj heq)
  exact ⟨ask, hask, hwants, document, hdocument, rfl⟩

theorem Hears.ask {entries : List DocEntry} (h : Hears spell iroh reading Q) :
    Hears spell iroh { reading with asking := some (entries, []) } Q := by
  refine ⟨h.1, fun left looked heq answer hmem => ?_⟩
  obtain ⟨rfl, rfl⟩ := Prod.mk.inj (Option.some.inj heq)
  exact absurd hmem List.not_mem_nil

/-- A query the content of whose answers nobody asks for is asked, and done with. -/
theorem From.list {ask : Ask} {document : Document} (h : From spell iroh reading P)
    (hask : nextAsk spell iroh reading.unit reading.answered = some ask) (hdocument : P document)
    (hasking : reading.asking = none) :
    From spell iroh
      { reading with
        answered := reading.answered ++ [(ask.entries document).map fun entry => (entry, none)] }
      P := by
  refine ⟨h.1.snoc hask hdocument ?_, fun left looked heq => ?_⟩
  · rw [List.map_map]
    exact List.map_id _
  · cases hasking.symm.trans heq

theorem Hears.list {ask : Ask} {looked : List Answered} (h : Hears spell iroh reading Q)
    (hask : nextAsk spell iroh reading.unit reading.answered = some ask)
    (hwants : ¬ask.wantsContent = true) (hasking : reading.asking = none) :
    Hears spell iroh { reading with answered := reading.answered ++ [looked] } Q :=
  ⟨h.1.snoc hask fun hwants' => absurd hwants' hwants,
    fun _ _ heq => nomatch hasking.symm.trans heq⟩

end OpenReads

/-! ## What the reader keeps -/

variable (spell iroh)

/-- An answer came without its content, or with the content that is there. -/
def told (catalogue : Catalogue) (answer : Answered) : Prop :=
  answer.2 = none ∨ answer.2 = catalogue.content iroh answer.1

/-- An answer is the one its entry would get now. -/
def current (catalogue : Catalogue) (answer : Answered) : Prop :=
  answer.2 = catalogue.content iroh answer.1

/-- A change about a unit was not taken yet. -/
def World.Marked (world : World serde) (unit : WorkUnit) : Prop :=
  (∃ noted ∈ world.owed, noted.unit spell = some unit) ∨ world.pending.Has unit

/-- A note that content arrived was not taken yet. -/
def World.ContentDue (world : World serde) : Prop :=
  Noted.content ∈ world.owed ∨ world.pending.contentArrived = true

/-- What is known of the read under way. -/
structure Sound (world : World serde) (todo : List WorkUnit) (reading : OpenRead) : Prop where
  asked : From spell iroh reading fun _ => True
  proper : Proper reading.unit reading.answered
  fresh : From spell iroh reading (· ∈ world.since reading.unit) ∨
    world.Marked spell reading.unit ∨ reading.unit ∈ todo
  told : Hears spell iroh reading (told iroh world.catalogue)
  filled : Hears spell iroh reading (current iroh world.catalogue) ∨ world.ContentDue

/-- What is known of what a unit was last projected from. -/
structure Standing (world : World serde) (todo : List WorkUnit) (reading : Option OpenRead)
    (unit : WorkUnit) (projected : Projected) : Prop where
  asked : FromDocs spell iroh (fun _ => True) unit projected.answered
  done : nextAsk spell iroh unit projected.answered = none
  told : Contents spell iroh (told iroh world.catalogue) unit projected.answered
  filled : Contents spell iroh (current iroh world.catalogue) unit projected.answered ∨
    world.ContentDue ∨ unit ∈ todo ∨ ∃ under ∈ reading, under.unit = unit
  waits : ¬Contents spell iroh (fun answer => answer.2 ≠ none) unit projected.answered →
    Waits world.writer unit
  written : Written spell iroh world.writer projected.members projected.answered unit

/-- **What was noted is due, is being read, or was last read with every change**, and
what was last read without its content is written and waited for. -/
structure Keeping (world : World serde) : Prop where
  present : ∀ unit, world.catalogue.document ∈ world.since unit
  reading : ∀ reading ∈ world.reader.reading, Sound spell iroh world world.reader.todo reading
  noted : ∀ noted ∈ world.noted, ∀ unit ∈ noted.unit spell,
    (world.Marked spell unit ∨ unit ∈ world.reader.todo) ∨
      (∃ under ∈ world.reader.reading, under.unit = unit) ∨
      ∃ projected ∈ world.last unit,
        FromDocs spell iroh (· ∈ world.since unit) unit projected.answered
  last : ∀ unit, ∀ projected ∈ world.last unit,
    Standing spell iroh world world.reader.todo world.reader.reading unit projected

variable {spell iroh}

/-- What the tasks beside the reader do to the world. -/
structure Onward (spell : Spellings) (iroh : Iroh) (before after : World serde) : Prop where
  reader : after.reader = before.reader
  writer : after.writer = before.writer
  last : after.last = before.last
  present : ∀ unit, after.catalogue.document ∈ after.since unit
  marked : ∀ unit, before.Marked spell unit → after.Marked spell unit
  contentDue : before.ContentDue → after.ContentDue
  since : ∀ unit, (∀ document ∈ before.since unit, document ∈ after.since unit) ∨
    after.Marked spell unit
  arrived : ∀ entry value, before.catalogue.content iroh entry = some value →
    after.catalogue.content iroh entry = some value
  content : after.catalogue.content iroh = before.catalogue.content iroh ∨ after.ContentDue
  noted : ∀ noted ∈ after.noted, noted ∈ before.noted ∨
    ∀ unit ∈ noted.unit spell, after.Marked spell unit

namespace Onward

variable {before after : World serde}

theorem told (h : Onward spell iroh before after) {answer : Answered}
    (htold : told iroh before.catalogue answer) : InStep.told iroh after.catalogue answer := by
  rcases hvalue : answer.2 with _ | value
  · exact Or.inl hvalue
  · rcases htold with hnone | hsame
    · cases hvalue.symm.trans hnone
    · exact Or.inr (hvalue.trans (h.arrived _ _ (hsame.symm.trans hvalue)).symm)

/-- What had its content keeps it, unless some content arrived. -/
theorem filled (h : Onward spell iroh before after) {F : (Answered → Prop) → Prop}
    (hfilled : F (current iroh before.catalogue) ∨ before.ContentDue) :
    F (current iroh after.catalogue) ∨ after.ContentDue := by
  rcases hfilled with hcurrent | hdue
  · rcases h.content with hsame | hdue
    · have hcurrent' : current iroh after.catalogue = current iroh before.catalogue := by
        funext answer
        rw [current, current, hsame]
      exact Or.inl (hcurrent' ▸ hcurrent)
    · exact Or.inr hdue
  · exact Or.inr (h.contentDue hdue)

theorem sound (h : Onward spell iroh before after) {todo : List WorkUnit} {reading : OpenRead}
    (hsound : Sound spell iroh before todo reading) : Sound spell iroh after todo reading where
  asked := hsound.asked
  proper := hsound.proper
  fresh := by
    rcases hsound.fresh with hfresh | hmarked | htodo
    · rcases h.since reading.unit with hsince | hmarked
      · exact Or.inl (hfresh.imp hsince)
      · exact Or.inr (Or.inl hmarked)
    · exact Or.inr (Or.inl (h.marked _ hmarked))
    · exact Or.inr (Or.inr htodo)
  told := hsound.told.imp fun _ => h.told
  filled := h.filled (F := Hears spell iroh reading) hsound.filled

theorem standing (h : Onward spell iroh before after) {todo : List WorkUnit}
    {reading : Option OpenRead} {unit : WorkUnit} {projected : Projected}
    (hstanding : Standing spell iroh before todo reading unit projected) :
    Standing spell iroh after todo reading unit projected where
  asked := hstanding.asked
  done := hstanding.done
  told := hstanding.told.imp fun _ => h.told
  filled := by
    rcases hstanding.filled with hcurrent | hdue | hlater
    · rcases h.filled (F := fun P => Contents spell iroh P unit projected.answered)
        (Or.inl hcurrent) with hcurrent' | hdue
      · exact Or.inl hcurrent'
      · exact Or.inr (Or.inl hdue)
    · exact Or.inr (Or.inl (h.contentDue hdue))
    · exact Or.inr (Or.inr hlater)
  waits := h.writer ▸ hstanding.waits
  written := h.writer ▸ hstanding.written

/-- **What the reader keeps, the tasks beside it leave standing.** -/
theorem keeping (h : Onward spell iroh before after) (hkeep : Keeping spell iroh before) :
    Keeping spell iroh after where
  present := h.present
  reading := by
    rw [h.reader]
    exact fun reading hreading => h.sound (hkeep.reading reading hreading)
  noted := by
    rw [h.reader, h.last]
    intro noted hnoted unit hunit
    rcases h.noted noted hnoted with hold | hnew
    · rcases hkeep.noted noted hold unit hunit with (hmarked | htodo) | hreading | hlast
      · exact Or.inl (Or.inl (h.marked unit hmarked))
      · exact Or.inl (Or.inr htodo)
      · exact Or.inr (Or.inl hreading)
      · obtain ⟨projected, hprojected, hfresh⟩ := hlast
        rcases h.since unit with hsince | hmarked
        · exact Or.inr (Or.inr ⟨projected, hprojected, hfresh.imp hsince⟩)
        · exact Or.inl (Or.inl hmarked)
    · exact Or.inl (Or.inl (hnew unit hunit))
  last := by
    rw [h.reader, h.last]
    exact fun unit projected hprojected => h.standing (hkeep.last unit projected hprojected)

end Onward

/-! ### The tasks beside the reader -/

section Beside

variable {world : World serde}

/-- What is not the one taken out is left. -/
theorem eq_or_mem_eraseIdx {α : Type} {l : List α} {i : ℕ} {a b : α} (hi : l[i]? = some a)
    (hb : b ∈ l) : b = a ∨ b ∈ l.eraseIdx i := by
  obtain ⟨j, hj⟩ := List.mem_iff_getElem?.mp hb
  by_cases hij : j = i
  · exact Or.inl (Option.some.inj (hj.symm.trans (hij ▸ hi)))
  · exact Or.inr (List.mem_eraseIdx_iff_getElem?.mpr ⟨j, hij, hj⟩)

theorem Onward.change (key : Bytes) (document : Document) :
    Onward spell iroh world (world.step spell iroh (.change key document)) where
  reader := rfl
  writer := rfl
  last := rfl
  present unit := by
    simp only [World.step]
    split <;> exact List.mem_cons_self ..
  marked unit := by
    rintro (⟨noted, hnoted, hunit⟩ | hpending)
    · exact Or.inl ⟨noted, List.mem_append_left _ hnoted, hunit⟩
    · exact Or.inr hpending
  contentDue := Or.imp_left (List.mem_append_left _)
  since unit := by
    by_cases hunit : unitOf spell key = some unit
    · exact Or.inr (Or.inl ⟨.entry key, List.mem_append_right _ (List.mem_singleton_self _), hunit⟩)
    · left
      intro old hold
      simp only [World.step, hunit, if_false]
      exact List.mem_cons_of_mem _ hold
  arrived _ _ h := h
  content := Or.inl rfl
  noted _ h := Or.inl h

/-- A note that content may have landed is owed. -/
theorem Onward.land (here : Finset ContentHash) (hmore : world.catalogue.here ⊆ here)
    (hkeep : Keeping spell iroh world) :
    Onward spell iroh world
      { world with
        catalogue := { world.catalogue with here }
        owed := world.owed ++ [.content] } where
  reader := rfl
  writer := rfl
  last := rfl
  present := hkeep.present
  marked unit := by
    rintro (⟨noted, hnoted, hunit⟩ | hpending)
    · exact Or.inl ⟨noted, List.mem_append_left _ hnoted, hunit⟩
    · exact Or.inr hpending
  contentDue _ := Or.inl (List.mem_append_right _ (List.mem_singleton_self _))
  since _ := Or.inl fun _ h => h
  arrived entry value h := by
    rw [Catalogue.content, Option.bind_eq_some_iff] at h ⊢
    obtain ⟨hash, hhash, hvalue⟩ := h
    split at hvalue
    · exact ⟨hash, hhash, by rw [if_pos (hmore ‹_›)]; exact hvalue⟩
    · cases hvalue
  content := Or.inr (Or.inl (List.mem_append_right _ (List.mem_singleton_self _)))
  noted _ h := Or.inl h

/-- A note recorded is as good as a note owed. -/
theorem Onward.record (hkeep : Keeping spell iroh world) (i : ℕ) :
    Onward spell iroh world (world.record spell i) := by
  rw [World.record]
  rcases hi : world.owed[i]? with _ | noted
  · exact ⟨rfl, rfl, rfl, hkeep.present, fun _ h => h, fun h => h, fun _ => Or.inl fun _ h => h,
      fun _ _ h => h, Or.inl rfl, fun _ h => Or.inl h⟩
  · refine ⟨rfl, rfl, rfl, hkeep.present, ?_, ?_, fun _ => Or.inl fun _ h => h, fun _ _ h => h,
      Or.inl rfl, ?_⟩
    · rintro unit (⟨other, hother, hunit⟩ | hpending)
      · rcases eq_or_mem_eraseIdx hi hother with rfl | hleft
        · exact Or.inr ((world.pending.has_note other unit).mpr (Or.inl hunit))
        · exact Or.inl ⟨other, hleft, hunit⟩
      · exact Or.inr ((world.pending.has_note noted unit).mpr (Or.inr hpending))
    · rintro (howed | hpending)
      · rcases eq_or_mem_eraseIdx hi howed with heq | hleft
        · exact Or.inr ((world.pending.contentArrived_note noted).mpr (Or.inl heq.symm))
        · exact Or.inl hleft
      · exact Or.inr ((world.pending.contentArrived_note noted).mpr (Or.inr hpending))
    · intro other hother
      rcases List.mem_append.mp hother with hold | hnew
      · exact Or.inl hold
      · obtain rfl := List.mem_singleton.mp hnew
        exact Or.inr fun unit hunit =>
          Or.inr ((world.pending.has_note other unit).mpr (Or.inl hunit))

end Beside

/-! ### The reader -/

namespace Keeping

variable {world : World serde}

theorem start (catalogue : Catalogue) (owed : List Noted) (writer : ReadModelWriter serde) :
    Keeping spell iroh (World.start catalogue owed writer) where
  present _ := List.mem_singleton_self _
  reading := nofun
  noted := nofun
  last := nofun

/-- The reader goes on without a read: it has no less to do. -/
theorem idle (h : Keeping spell iroh world) {after : Reader} (seen : ℕ) (members : Finset MemberId)
    (replayed : List WorkUnit)
    (hbefore : world.reader.reading = none) (hafter : after.reading = none)
    (htodo : ∀ unit ∈ world.reader.todo, unit ∈ after.todo) :
    Keeping spell iroh
      { world with seen, reader := after, writer := { world.writer with members }, replayed } where
  present := h.present
  reading reading hreading := by cases hafter.symm.trans hreading
  noted noted hnoted unit hunit := by
    rcases h.noted noted hnoted unit hunit with hdue | ⟨under, hunder, -⟩ | hlast
    · exact Or.inl (hdue.imp_right (htodo unit))
    · cases hbefore.symm.trans hunder
    · exact Or.inr (Or.inr hlast)
  last unit projected hprojected := by
    have hstanding := h.last unit projected hprojected
    refine ⟨hstanding.asked, hstanding.done, hstanding.told, ?_, ?_, ?_⟩
    · rcases hstanding.filled with hcurrent | hdue | hmore | ⟨under, hunder, -⟩
      · exact Or.inl hcurrent
      · exact Or.inr (Or.inl hdue)
      · exact Or.inr (Or.inr (Or.inl (htodo unit hmore)))
      · cases hbefore.symm.trans hunder
    · intro hmissing
      have hwaits := hstanding.waits hmissing
      cases unit <;> exact hwaits
    · have hwritten := hstanding.written
      cases unit <;> exact hwritten

/-- The batch is taken: it is all to do, and if content arrived so is whatever waits
for it. -/
theorem take (h : Keeping spell iroh world) (hlooking : world.reader = .looking) :
    Keeping spell iroh
      { world with
        pending := .empty
        taken := world.taken ++ [(world.pending, world.unread)]
        unread := []
        reader := .working (jobs world.writer world.pending) none } where
  present := h.present
  reading := nofun
  noted noted hnoted unit hunit := by
    rcases h.noted noted hnoted unit hunit with hdue | ⟨under, hunder, -⟩ | hlast
    · rcases hdue with (howed | hpending) | htodo
      · exact Or.inl (Or.inl (Or.inl howed))
      · exact Or.inl (Or.inr (mem_jobs.mpr (Or.inl hpending)))
      · rw [hlooking] at htodo
        exact absurd htodo List.not_mem_nil
    · rw [hlooking] at hunder
      cases hunder
    · exact Or.inr (Or.inr hlast)
  last unit projected hprojected := by
    have hstanding := h.last unit projected hprojected
    refine ⟨hstanding.asked, hstanding.done, hstanding.told, ?_, hstanding.waits,
      hstanding.written⟩
    by_cases hcurrent : Contents spell iroh (current iroh world.catalogue) unit projected.answered
    · exact Or.inl hcurrent
    · right
      rcases hstanding.filled with hcurrent' | (howed | harrived) | htodo | ⟨under, hunder, -⟩
      · exact absurd hcurrent' hcurrent
      · exact Or.inl (Or.inl howed)
      · -- what it was without, it waits for
        have hmissing : ¬Contents spell iroh (fun answer => answer.2 ≠ none) unit
            projected.answered := fun hall =>
          hcurrent fun i ask looked hask hwants hlooked answer hmem =>
            (hstanding.told i ask looked hask hwants hlooked answer hmem).resolve_left
              (hall i ask looked hask hwants hlooked answer hmem)
        exact Or.inr (Or.inl (mem_jobs.mpr (Or.inr ⟨harrived, hstanding.waits hmissing⟩)))
      · rw [hlooking] at htodo
        exact absurd htodo List.not_mem_nil
      · rw [hlooking] at hunder
        cases hunder

/-- The next unit is read. -/
theorem next (h : Keeping spell iroh world) {unit : WorkUnit} {todo : List WorkUnit}
    (hreader : world.reader = .working (unit :: todo) none) :
    Keeping spell iroh { world with reader := .working todo (some ⟨unit, [], none⟩) } where
  present := h.present
  reading reading hreading := by
    obtain rfl := Option.some.inj hreading
    exact ⟨⟨.nil, nofun⟩, .nil, Or.inl ⟨.nil, nofun⟩, ⟨.nil, nofun⟩, Or.inl ⟨.nil, nofun⟩⟩
  noted noted hnoted other hother := by
    rcases h.noted noted hnoted other hother with hdue | ⟨under, hunder, -⟩ | hlast
    · rw [hreader] at hdue
      rcases hdue with hmarked | htodo
      · exact Or.inl (Or.inl hmarked)
      · rcases List.mem_cons.mp htodo with rfl | hlater
        · exact Or.inr (Or.inl ⟨_, rfl, rfl⟩)
        · exact Or.inl (Or.inr hlater)
    · rw [hreader] at hunder
      cases hunder
    · exact Or.inr (Or.inr hlast)
  last other projected hprojected := by
    have hstanding := h.last other projected hprojected
    refine ⟨hstanding.asked, hstanding.done, hstanding.told, ?_, hstanding.waits,
      hstanding.written⟩
    have hfilled := hstanding.filled
    rw [hreader] at hfilled
    rcases hfilled with hcurrent | hdue | htodo | ⟨under, hunder, -⟩
    · exact Or.inl hcurrent
    · exact Or.inr (Or.inl hdue)
    · rcases List.mem_cons.mp htodo with rfl | hlater
      · exact Or.inr (Or.inr (Or.inr ⟨_, rfl, rfl⟩))
      · exact Or.inr (Or.inr (Or.inl hlater))
    · cases hunder

/-- A read goes on. -/
theorem goOn (h : Keeping spell iroh world) {todo : List WorkUnit} {reading after : OpenRead}
    (hreader : world.reader = .working todo (some reading)) (hunit : after.unit = reading.unit)
    (hsound : Sound spell iroh world todo after) :
    Keeping spell iroh { world with reader := .working todo (some after) } where
  present := h.present
  reading found hfound := by
    obtain rfl := Option.some.inj hfound
    exact ⟨hsound.asked, hsound.proper, hsound.fresh, hsound.told, hsound.filled⟩
  noted noted hnoted unit hnotedUnit := by
    have hbefore := h.noted noted hnoted unit hnotedUnit
    rw [hreader] at hbefore
    rcases hbefore with hdue | ⟨under, hunder, hwhose⟩ | hlast
    · exact Or.inl hdue
    · obtain rfl := Option.some.inj hunder
      exact Or.inr (Or.inl ⟨after, rfl, hunit.trans hwhose⟩)
    · exact Or.inr (Or.inr hlast)
  last unit projected hprojected := by
    have hstanding := h.last unit projected hprojected
    refine ⟨hstanding.asked, hstanding.done, hstanding.told, ?_, hstanding.waits,
      hstanding.written⟩
    have hfilled := hstanding.filled
    rw [hreader] at hfilled
    rcases hfilled with hcurrent | hdue | htodo | ⟨under, hunder, hwhose⟩
    · exact Or.inl hcurrent
    · exact Or.inr (Or.inl hdue)
    · exact Or.inr (Or.inr (Or.inl htodo))
    · obtain rfl := Option.some.inj hunder
      exact Or.inr (Or.inr (Or.inr ⟨after, rfl, hunit.trans hwhose⟩))

/-- What was read is written. -/
theorem write (h : Keeping spell iroh world) {todo : List WorkUnit} {reading : OpenRead}
    (hreader : world.reader = .working todo (some reading))
    (hsound : Sound spell iroh world todo reading)
    (hdone : nextAsk spell iroh reading.unit reading.answered = none) :
    Keeping spell iroh
      { world with
        writer := takeUnit spell iroh world.writer reading.answered reading.unit
        last := Function.update world.last reading.unit
          (some ⟨reading.answered, world.writer.members⟩)
        reader := .working todo none } where
  present := h.present
  reading := nofun
  noted noted hnoted unit hnotedUnit := by
    have hbefore := h.noted noted hnoted unit hnotedUnit
    rw [hreader] at hbefore
    have hread : (world.Marked spell reading.unit ∨ reading.unit ∈ todo) ∨
        FromDocs spell iroh (· ∈ world.since reading.unit) reading.unit reading.answered := by
      rcases hsound.fresh with hfresh | hdue
      · exact Or.inr hfresh.1
      · exact Or.inl hdue
    by_cases hunit : unit = reading.unit
    · subst hunit
      rcases hread with hdue | hfresh
      · exact Or.inl hdue
      · exact Or.inr (Or.inr ⟨_, Function.update_self .., hfresh⟩)
    · rcases hbefore with hdue | ⟨under, hunder, hwhose⟩ | ⟨projected, hprojected, hfresh⟩
      · exact Or.inl hdue
      · obtain rfl := Option.some.inj hunder
        exact absurd hwhose.symm hunit
      · exact Or.inr (Or.inr
          ⟨projected, (Function.update_of_ne hunit ..).trans hprojected, hfresh⟩)
  last unit projected hprojected := by
    by_cases hunit : unit = reading.unit
    · subst hunit
      obtain rfl := Option.some.inj
        ((Function.update_self reading.unit _ world.last).symm.trans hprojected)
      refine ⟨hsound.asked.1, hdone, hsound.told.1, ?_, ?_, takeUnit_written ..⟩
      · rcases hsound.filled with hcurrent | hdue
        · exact Or.inl hcurrent.1
        · exact Or.inr (Or.inl hdue)
      · exact takeUnit_waits world.writer hsound.asked.1 hsound.proper
    · have hlast := (Function.update_of_ne hunit ..).symm.trans hprojected
      have hstanding := h.last unit projected hlast
      refine ⟨hstanding.asked, hstanding.done, hstanding.told, ?_, ?_, ?_⟩
      · have hfilled := hstanding.filled
        rw [hreader] at hfilled
        rcases hfilled with hcurrent | hdue | htodo | ⟨under, hunder, hwhose⟩
        · exact Or.inl hcurrent
        · exact Or.inr (Or.inl hdue)
        · exact Or.inr (Or.inr (Or.inl htodo))
        · obtain rfl := Option.some.inj hunder
          exact absurd hwhose.symm hunit
      · exact fun hmissing =>
          (takeUnit_waits_other world.writer hunit).mpr (hstanding.waits hmissing)
      · exact (takeUnit_written_other world.writer hunit _ _).mpr hstanding.written

theorem read (h : Keeping spell iroh world) {todo : List WorkUnit} {reading : OpenRead}
    (hreader : world.reader = .working todo (some reading)) :
    Keeping spell iroh (world.read spell iroh todo reading) := by
  have hsound : Sound spell iroh world todo reading := by
    have hfound := h.reading reading (by rw [hreader]; rfl)
    rw [hreader] at hfound
    exact hfound
  rw [World.read]
  split
  · -- the content of the next entry
    rename_i entry left looked hasking
    refine h.goOn hreader rfl ⟨hsound.asked.look hasking _, hsound.proper, ?_,
      hsound.told.look hasking (Or.inr rfl), ?_⟩
    · exact hsound.fresh.imp_left fun hfresh => hfresh.look hasking _
    · exact hsound.filled.imp_left fun hcurrent => hcurrent.look hasking rfl
  · -- a query done with
    rename_i looked hasking
    obtain ⟨ask, hask, -⟩ := hsound.asked.2 _ _ hasking
    refine h.goOn hreader rfl ⟨hsound.asked.close hasking, hsound.proper.snoc hask, ?_,
      hsound.told.close hasking hask, ?_⟩
    · exact hsound.fresh.imp_left fun hfresh => hfresh.close hasking
    · exact hsound.filled.imp_left fun hcurrent => hcurrent.close hasking hask
  · rename_i hasking
    split
    · rename_i ask hask
      by_cases hwants : ask.wantsContent = true
      · -- a query asked
        simp only [hwants, if_true]
        refine h.goOn hreader rfl ⟨hsound.asked.ask hask hwants trivial, hsound.proper, ?_,
          hsound.told.ask, ?_⟩
        · exact hsound.fresh.imp_left fun hfresh => hfresh.ask hask hwants (h.present _)
        · exact hsound.filled.imp_left fun hcurrent => hcurrent.ask
      · -- a query asked and done with
        simp only [hwants, Bool.false_eq_true, if_false]
        refine h.goOn hreader rfl ⟨hsound.asked.list hask trivial hasking,
          hsound.proper.snoc hask, ?_, hsound.told.list hask hwants hasking, ?_⟩
        · exact hsound.fresh.imp_left fun hfresh => hfresh.list hask (h.present _) hasking
        · exact hsound.filled.imp_left fun hcurrent => hcurrent.list hask hwants hasking
    · rename_i hdone
      exact h.write hreader hsound hdone

theorem advance (h : Keeping spell iroh world) : Keeping spell iroh (world.advance spell iroh) := by
  rw [World.advance]
  split
  · rename_i hreader
    refine h.idle world.seen world.writer.members (listed spell iroh world.catalogue)
      (by rw [hreader]; rfl) rfl ?_
    rw [hreader]
    intro ask hask
    cases hask
  · rename_i hreader
    refine h.idle world.version world.writer.members world.replayed (by rw [hreader]; rfl) rfl ?_
    rw [hreader]
    intro ask hask
    cases hask
  · rename_i hreader
    split
    · refine h.idle world.seen world.writer.members world.replayed (by rw [hreader]; rfl) rfl ?_
      rw [hreader]
      intro ask hask
      cases hask
    · exact h.take hreader
  · rename_i hreader
    split
    · refine h.idle world.version world.writer.members world.replayed (by rw [hreader]; rfl) rfl ?_
      rw [hreader]
      intro ask hask
      cases hask
    · exact h
  · rename_i hreader
    refine h.idle world.seen world.writer.members world.replayed (by rw [hreader]; rfl) rfl ?_
    rw [hreader]
    intro ask hask
    cases hask
  · exact h.next ‹_›
  · exact h.read ‹_›

/-- At its select the reader has nothing to do. -/
theorem atSelect (h : Keeping spell iroh world) (hselect : world.reader.atSelect = true)
    {after : Reader} (hafter : after.reading = none) (members : Finset MemberId) :
    Keeping spell iroh { world with reader := after, writer := { world.writer with members } } := by
  have hidle : world.reader.reading = none ∧ world.reader.todo = [] := by
    cases hreader : world.reader with
    | marking => exact ⟨rfl, rfl⟩
    | waiting => exact ⟨rfl, rfl⟩
    | _ =>
      rw [hreader] at hselect
      cases hselect
  refine h.idle world.seen members world.replayed hidle.1 hafter ?_
  rw [hidle.2]
  intro ask hask
  cases hask

/-- **What the reader keeps, every step keeps.** -/
theorem step (h : Keeping spell iroh world) (happening : Happening) :
    Keeping spell iroh (world.step spell iroh happening) := by
  cases happening with
  | change key document => exact (Onward.change key document).keeping h
  | arrive hash => exact (Onward.land _ (Finset.subset_insert ..) h).keeping h
  | nudge => exact (Onward.land world.catalogue.here (Finset.Subset.refl _) h).keeping h
  | record i => exact (Onward.record h i).keeping h
  | wake =>
    rw [World.step]
    split
    · exact h
    · exact ⟨h.present, fun reading hreading =>
          have hsound := h.reading reading hreading
          ⟨hsound.asked, hsound.proper, hsound.fresh, hsound.told, hsound.filled⟩,
        h.noted, fun unit projected hprojected =>
          have hstanding := h.last unit projected hprojected
          ⟨hstanding.asked, hstanding.done, hstanding.told, hstanding.filled, hstanding.waits,
            hstanding.written⟩⟩
  | advance => exact h.advance
  | reindex =>
    rw [World.step]
    split
    · exact h.atSelect ‹_› rfl world.writer.members
    · exact h
  | members members =>
    rw [World.step]
    split
    · rw [World.hear]
      split
      · exact h.atSelect ‹_› rfl world.writer.members
      · exact h.atSelect ‹_› rfl members
    · exact h

end Keeping

/-! ### The members a unit is projected for -/

variable (spell iroh) in
/-- What a unit was last projected for are the members the writer knows of now; or it is
listed, read again, or was not there for the last replay to list. -/
def World.Relists (world : World serde) : Prop :=
  ∀ unit, ∀ projected ∈ world.last unit,
    projected.members = world.writer.members ∨ world.reader = .listing ∨
      unit ∈ world.reader.todo ∨ (∃ under ∈ world.reader.reading, under.unit = unit) ∨
      unit ∉ world.replayed

namespace World.Relists

variable {world : World serde}

theorem start (catalogue : Catalogue) (owed : List Noted) (writer : ReadModelWriter serde) :
    (World.start catalogue owed writer).Relists :=
  nofun

/-- What is not the reader's leaves the projections alone. -/
theorem beside (h : world.Relists) {after : World serde} (hreader : after.reader = world.reader)
    (hwriter : after.writer = world.writer) (hlast : after.last = world.last)
    (hreplayed : after.replayed = world.replayed) : after.Relists := by
  rw [World.Relists, hreader, hwriter, hlast, hreplayed]
  exact h

/-- A reader that has nothing to do and is not about to list has nothing to read again. -/
theorem settled (h : world.Relists) {reader : Reader} (hreader : world.reader = reader)
    (hlisting : reader ≠ .listing) (htodo : reader.todo = []) (hreading : reader.reading = none) :
    ∀ unit, ∀ projected ∈ world.last unit,
      projected.members = world.writer.members ∨ unit ∉ world.replayed := by
  intro unit projected hprojected
  have hlast := h unit projected hprojected
  rw [hreader, htodo, hreading] at hlast
  rcases hlast with hsame | hlists | hmore | ⟨under, hunder, -⟩ | hunlisted
  · exact Or.inl hsame
  · exact absurd hlists hlisting
  · exact absurd hmore List.not_mem_nil
  · cases hunder
  · exact Or.inr hunlisted

/-- From where there is nothing to read again the reader may go on to anything. -/
theorem of_settled {after : World serde}
    (h : ∀ unit, ∀ projected ∈ after.last unit,
      projected.members = after.writer.members ∨ unit ∉ after.replayed) : after.Relists :=
  fun unit projected hprojected =>
    (h unit projected hprojected).imp_right fun hunlisted => Or.inr (Or.inr (Or.inr hunlisted))

theorem of_listing {after : World serde} (h : after.reader = .listing) : after.Relists :=
  fun _ _ _ => Or.inr (Or.inl h)

/-- A read goes on, or its unit is projected for the members of now. -/
theorem read (h : world.Relists) {todo : List WorkUnit} {reading : OpenRead}
    (hreader : world.reader = .working todo (some reading)) :
    (world.read spell iroh todo reading).Relists := by
  -- a read that goes on is of the same unit
  have hgoesOn : ∀ after : OpenRead, after.unit = reading.unit →
      World.Relists { world with reader := .working todo (some after) } := by
    intro after hunit unit projected hprojected
    have hlast := h unit projected hprojected
    rw [hreader] at hlast
    rcases hlast with hsame | hlists | hmore | ⟨under, hunder, hwhose⟩ | hunlisted
    · exact Or.inl hsame
    · cases hlists
    · exact Or.inr (Or.inr (Or.inl hmore))
    · obtain rfl := Option.some.inj hunder
      exact Or.inr (Or.inr (Or.inr (Or.inl ⟨after, rfl, hunit.trans hwhose⟩)))
    · exact Or.inr (Or.inr (Or.inr (Or.inr hunlisted)))
  rw [World.read]
  split
  · exact hgoesOn _ rfl
  · exact hgoesOn _ rfl
  · split
    · refine hgoesOn _ ?_
      split <;> rfl
    · intro unit projected hprojected
      rw [takeUnit_members]
      by_cases hunit : unit = reading.unit
      · subst hunit
        obtain rfl := Option.some.inj
          ((Function.update_self reading.unit _ world.last).symm.trans hprojected)
        exact Or.inl rfl
      · have hlast := h unit projected ((Function.update_of_ne hunit ..).symm.trans hprojected)
        rw [hreader] at hlast
        rcases hlast with hsame | hlists | hmore | ⟨under, hunder, hwhose⟩ | hunlisted
        · exact Or.inl hsame
        · cases hlists
        · exact Or.inr (Or.inr (Or.inl hmore))
        · obtain rfl := Option.some.inj hunder
          exact absurd hwhose.symm hunit
        · exact Or.inr (Or.inr (Or.inr (Or.inr hunlisted)))

theorem advance (h : world.Relists) : (world.advance spell iroh).Relists := by
  rw [World.advance]
  split
  · -- a unit is listed, or it is not
    intro unit projected hprojected
    by_cases hlisted : unit ∈ listed spell iroh world.catalogue
    · exact Or.inr (Or.inr (Or.inl hlisted))
    · exact Or.inr (Or.inr (Or.inr (Or.inr hlisted)))
  · rename_i hreader
    exact of_settled (h.settled hreader (by simp) rfl rfl)
  · rename_i hreader
    split
    · exact of_settled (h.settled hreader (by simp) rfl rfl)
    · exact of_settled (h.settled hreader (by simp) rfl rfl)
  · rename_i hreader
    split
    · exact of_settled (h.settled hreader (by simp) rfl rfl)
    · exact h
  · rename_i hreader
    exact of_settled (h.settled hreader (by simp) rfl rfl)
  · rename_i unit todo hreader
    intro other projected hprojected
    have hlast := h other projected hprojected
    rw [hreader] at hlast
    rcases hlast with hsame | hlists | hmore | ⟨under, hunder, -⟩ | hunlisted
    · exact Or.inl hsame
    · cases hlists
    · rcases List.mem_cons.mp hmore with rfl | hlater
      · exact Or.inr (Or.inr (Or.inr (Or.inl ⟨_, rfl, rfl⟩)))
      · exact Or.inr (Or.inr (Or.inl hlater))
    · cases hunder
    · exact Or.inr (Or.inr (Or.inr (Or.inr hunlisted)))
  · exact h.read ‹_›

/-- **A unit is projected for the members of now**, or the last replay found nothing of it
to project. -/
theorem step (h : world.Relists) (happening : Happening) :
    (world.step spell iroh happening).Relists := by
  cases happening with
  | change key document => exact h.beside rfl rfl rfl rfl
  | arrive hash => exact h.beside rfl rfl rfl rfl
  | nudge => exact h.beside rfl rfl rfl rfl
  | record i =>
    rw [World.step, World.record]
    split
    · exact h
    · exact h.beside rfl rfl rfl rfl
  | wake =>
    rw [World.step]
    split
    · exact h
    · exact h.beside rfl rfl rfl rfl
  | advance => exact h.advance
  | reindex =>
    rw [World.step]
    split
    · exact of_listing rfl
    · exact h
  | members members =>
    rw [World.step]
    split
    · rename_i hselect
      rw [World.hear]
      split
      · refine of_settled (h.settled rfl ?_ ?_ ?_) <;>
          cases hreader : world.reader <;> simp [hreader, Reader.atSelect] at hselect ⊢ <;> rfl
      · exact of_listing rfl
    · exact h

end World.Relists

/-! ## No change is missed -/

/-- Everything there is to note is noted, and the reader waits over an empty batch. -/
def World.Quiet (world : World serde) : Prop :=
  world.owed = [] ∧ world.reader = .waiting ∧ world.pending.isEmpty = true

instance (world : World serde) : Decidable world.Quiet :=
  inferInstanceAs (Decidable (_ ∧ _ ∧ _))

variable (spell iroh) in
/-- The answers of a whole read of a unit, each query answered from a document that has
every change noted about it, with the content that is there. -/
structure WholeRead (world : World serde) (unit : WorkUnit) (answered : List (List Answered)) :
    Prop where
  done : nextAsk spell iroh unit answered = none
  fresh : FromDocs spell iroh (· ∈ world.since unit) unit answered
  contents : Contents spell iroh (current iroh world.catalogue) unit answered

/-- **No change is missed.** In whatever order the document changes and content lands,
notes are recorded, the reader is woken and goes on:
- every note is in exactly one batch, the next one taken, and a batch has exactly what
  its notes are about, content among it;
- the reader does not wait over a batch that is not empty, unless a task is about to
  wake it, or has;
- when everything is noted and the reader waits over an empty batch, every unit that was
  noted was last read whole from documents with every change noted about it and with all
  the content that is there, and its rows are what that read gives for the members the
  writer was told of: those of now, or the last replay had nothing of the unit to list. An
  item read as absent gives none. -/
theorem in_step (spell : Spellings) (iroh : Iroh) (catalogue : Catalogue) (owed : List Noted)
    (writer : ReadModelWriter serde) (happenings : List Happening) :
    let world := exec (World.step spell iroh) (World.start catalogue owed writer) happenings
    (world.noted = world.taken.flatMap Prod.snd ++ world.unread ∧
      (∀ batch ∈ world.taken, Carries spell batch.1 batch.2) ∧
      Carries spell world.pending world.unread) ∧
    (world.reader = .waiting → world.seen = world.version → world.waking = 0 →
      world.pending.isEmpty = true) ∧
    (world.Quiet → ∀ noted ∈ world.noted, ∀ unit ∈ noted.unit spell,
      ∃ projected ∈ world.last unit,
        WholeRead spell iroh world unit projected.answered ∧
          Written spell iroh world.writer projected.members projected.answered unit ∧
          (projected.members = world.writer.members ∨ unit ∉ world.replayed)) := by
  intro world
  have hnoting : Noting spell world :=
    exec_invariant (fun _ happening h => h.step happening) happenings (.start catalogue owed writer)
  have hkeep : Keeping spell iroh world :=
    exec_invariant (fun _ happening h => h.step happening) happenings (.start catalogue owed writer)
  have hrelists : world.Relists :=
    exec_invariant (fun _ happening h => h.step happening) happenings (.start catalogue owed writer)
  refine ⟨⟨hnoting.inOrder, hnoting.taken, hnoting.pending⟩, ?_, ?_⟩
  · intro hwaiting hseen hwaking
    by_contra hnonempty
    rcases hnoting.stirred hwaiting (Bool.eq_false_iff.mpr hnonempty) with hunseen | hpos
    · omega
    · omega
  · rintro ⟨howed, hwaiting, hempty⟩ noted hnoted unit hunit
    obtain ⟨hnone, hcontent⟩ := world.pending.isEmpty_iff.mp hempty
    -- nothing is due, and nothing is being read
    have hunmarked : ¬world.Marked spell unit := by
      rintro (⟨other, hother, -⟩ | hpending)
      · rw [howed] at hother
        exact absurd hother List.not_mem_nil
      · exact hnone unit hpending
    have hnotDue : ¬world.ContentDue := by
      rintro (hcontentOwed | harrived)
      · rw [howed] at hcontentOwed
        exact absurd hcontentOwed List.not_mem_nil
      · exact absurd (hcontent.symm.trans harrived) (by decide)
    have htodo : world.reader.todo = [] := by rw [hwaiting]; rfl
    have hreading : world.reader.reading = none := by rw [hwaiting]; rfl
    have hread := hkeep.noted noted hnoted unit hunit
    rw [htodo, hreading] at hread
    rcases hread with (hmarked | htodo) | ⟨under, hunder, -⟩ | ⟨projected, hprojected, hfresh⟩
    · exact absurd hmarked hunmarked
    · exact absurd htodo List.not_mem_nil
    · cases hunder
    · have hstanding := hkeep.last unit projected hprojected
      have hfilled := hstanding.filled
      rw [htodo, hreading] at hfilled
      rcases hfilled with hcurrent | hdue | hmore | ⟨under, hunder, -⟩
      · exact ⟨projected, hprojected, ⟨hstanding.done, hfresh, hcurrent⟩, hstanding.written,
          hrelists.settled rfl (by rw [hwaiting]; nofun) htodo hreading unit projected hprojected⟩
      · exact absurd hdue hnotDue
      · exact absurd hmore List.not_mem_nil
      · cases hunder

/-- An item none of whose entries is left reads as absent. -/
theorem readItem_of_gone {id : ItemId} {documents : List Document} {answered : List (List Answered)}
    (hgone : ∀ document ∈ documents,
      document.singleLatestPerKey iroh (Key.prefixOf spell id) = [])
    (hfrom : FromDocs spell iroh (· ∈ documents) (.item id) answered) :
    readItem spell serde iroh id (itemAnswersOf answered) = none := by
  rw [readItem, if_pos]
  rcases hown : answered[0]? with _ | looked
  · simp only [itemAnswersOf, List.getD_eq_getElem?_getD, hown, Option.getD_none]
  · obtain ⟨ask, hask, document, hdocument, hentries⟩ := hfrom 0 looked hown
    obtain rfl := Option.some.inj hask
    have hnone : looked.map Prod.fst = [] := hentries.trans (hgone document hdocument)
    exact (getD_of_getElem? hown).trans (List.map_eq_nil_iff.mp hnone)

end InStep

/-! ## An item that was emptied -/

namespace Sample

open InStep

/-- The key of the book's title. -/
def titleKey : Bytes := Key.encode .hex (.field book .title)

/-- Bob has written the book's title. -/
def withTitle : Catalogue :=
  ⟨⟨[⟨bob.author, titleKey, 10, some ⟨1⟩⟩], List.nodup_singleton _⟩, {⟨1⟩}⟩

/-- He has deleted it again. -/
def withoutTitle : Document :=
  ⟨[⟨bob.author, titleKey, 20, none⟩], List.nodup_singleton _⟩

/-- The book is projected; its title is deleted, noted and read. -/
def emptying : List Happening :=
  .replicate 20 .advance ++ [.change titleKey withoutTitle, .record 0, .wake] ++
    .replicate 20 .advance

/-- The world that leaves. -/
def emptied : World serde :=
  exec (World.step .hex iroh) (World.start withTitle [] (.start .empty {bob})) emptying

/-- The deletion was noted, the reader has nothing left to do, and the book's rows are
none that a read of the document gives. -/
theorem emptied_item_stays :
    emptied.Quiet ∧
      (∃ noted ∈ emptied.noted, noted.unit .hex = some (.item book)) ∧
      ∀ answered members, WholeRead .hex iroh emptied (.item book) answered →
        emptied.writer.tables.items book ≠
          (readItem .hex serde iroh book (itemAnswersOf answered)).map (ReadItem.stored members) := by
  have hgone : ∀ document ∈ emptied.since (.item book),
      document.singleLatestPerKey iroh (Key.prefixOf .hex book) = [] := by decide +kernel
  have hrow : emptied.writer.tables.items book ≠ none := by decide +kernel
  refine ⟨by decide +kernel, by decide +kernel, fun answered members hread heq => ?_⟩
  rw [readItem_of_gone hgone hread.fresh] at heq
  exact hrow heq

end Sample

end Distlib
