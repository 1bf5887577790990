import Distlib.Store.Replay
import Distlib.Sync.Changes

/-!
# Reads, query by query

A read of an item, of its bookmarks or of a wish is several queries, and for most of
them the content of each entry is asked for on its own. Anything may happen to the
document between two of them. Here is a read as the list of what it asks (`asks`), what
it has been answered so far (`OpenRead`), and what the projection makes of the answers
when there is nothing left to ask (`takeUnit`).

Two things are said of answers. `FromDocs P` says that every query was answered from a
document with `P`, `Contents P` that every answer whose content was asked for has `P`. The
projection writes the rows the answers give (`takeUnit_written`) and remembers a unit
some content of which was not here (`takeUnit_waits`); it leaves the other units alone.
-/

namespace Distlib

/-! ## What a read asks -/

/-- One query of a read, and whether the content of what it answers is asked for. -/
structure Ask where
  entries : Document → List DocEntry
  wantsContent : Bool

/-- A community query, of which only the entries that count are looked at. -/
def Ask.counting (spell : Spellings) (under : Bytes) : Ask where
  entries document := (document.all under).filter fun entry => (counted spell entry).isSome
  wantsContent := true

section Reads

variable (spell : Spellings) {serde : Serde} (iroh : Iroh)

/-- The queries of a read, in order. -/
def asks : WorkUnit → List Ask
  | .item id =>
    [⟨fun document => document.singleLatestPerKey iroh (Key.prefixOf spell id), true⟩,
      .counting spell (CommunityKey.ratingsOf spell id),
      .counting spell (CommunityKey.reviewsOf spell id),
      ⟨fun document => document.all (Key.prefixOf spell id), false⟩]
  | .bookmarks item => [.counting spell (CommunityKey.bookmarksOf spell item)]
  | .wish wish =>
    [.counting spell (CommunityKey.wishEntriesOf spell wish),
      .counting spell (CommunityKey.commentsOn spell wish)]

/-- Whether a unit is an item of whose own keys there was no entry: it is not read any
further. -/
def absent (unit : WorkUnit) (answered : List (List Answered)) : Bool :=
  match unit, answered with
  | .item _, [[]] => true
  | _, _ => false

/-- The query a read asks next. -/
def nextAsk (unit : WorkUnit) (answered : List (List Answered)) : Option Ask :=
  if absent unit answered then none else (asks spell iroh unit)[answered.length]?

/-- A read under way. -/
structure OpenRead where
  unit : WorkUnit
  /-- the queries that were answered, in order -/
  answered : List (List Answered)
  /-- the query being looked at: what is left of it, and what was looked at -/
  asking : Option (List DocEntry × List Answered)
  deriving DecidableEq

/-- The answers as the read of an item takes them. -/
def itemAnswersOf (answered : List (List Answered)) : ItemAnswers where
  own := answered.getD 0 []
  ratings := answered.getD 1 []
  reviews := answered.getD 2 []
  files := (answered.getD 3 []).map Prod.fst

/-- What was read of a unit is taken in. -/
def takeUnit (writer : ReadModelWriter serde) (answered : List (List Answered)) :
    WorkUnit → ReadModelWriter serde
  | .item id => writer.takeItem id false (readItem spell serde iroh id (itemAnswersOf answered))
  | .bookmarks item =>
    writer.takeBookmarks item false (readBookmarks spell serde (answered.getD 0 []))
  | .wish wish =>
    writer.takeWish wish false (readWish spell serde (answered.getD 0 []) (answered.getD 1 []))

/-- What a batch has to be read again for, with whatever waits for content if some
has arrived. -/
def jobs (writer : ReadModelWriter serde) (batch : Batch) : List WorkUnit :=
  let items := if batch.contentArrived then batch.items ∪ writer.itemsWaitingForContent
    else batch.items
  let bookmarks := if batch.contentArrived then
      batch.itemsWithChangedBookmarks ∪ writer.itemsWithBookmarksWaitingForContent
    else batch.itemsWithChangedBookmarks
  let wishes := if batch.contentArrived then batch.changedWishes ∪ writer.wishesWaitingForContent
    else batch.changedWishes
  items.toList.map .item ++ bookmarks.toList.map .bookmarks ++ wishes.toList.map .wish

/-- Everything a replay lists. -/
def listed (catalogue : Catalogue) : List WorkUnit :=
  (catalogue.itemIds spell iroh).toList.map .item ++
    (catalogue.bookmarkedItemIds spell iroh).toList.map .bookmarks ++
    (catalogue.wishIds spell iroh).toList.map .wish

/-! ## What is said of the answers -/

/-- Every query was answered, each from a document with `P`. -/
def FromDocs (P : Document → Prop) (unit : WorkUnit) (answered : List (List Answered)) : Prop :=
  ∀ (i : ℕ) (looked : List Answered), answered[i]? = some looked →
    ∃ ask, (asks spell iroh unit)[i]? = some ask ∧
      ∃ document, P document ∧ looked.map Prod.fst = ask.entries document

/-- Every answer whose content was asked for has `P`. -/
def Contents (P : Answered → Prop) (unit : WorkUnit) (answered : List (List Answered)) : Prop :=
  ∀ (i : ℕ) (ask : Ask) (looked : List Answered), (asks spell iroh unit)[i]? = some ask →
    ask.wantsContent = true → answered[i]? = some looked → ∀ answer ∈ looked, P answer

/-- No query was asked after the item was found absent. -/
def Proper (unit : WorkUnit) (answered : List (List Answered)) : Prop :=
  ∀ n < answered.length, absent unit (answered.take n) = false

/-- The rows of a unit are those the answers give. An item read as absent is skipped. -/
def Written (writer : ReadModelWriter serde) (members : Finset MemberId)
    (answered : List (List Answered)) : WorkUnit → Prop
  | .item id => ∀ read, readItem spell serde iroh id (itemAnswersOf answered) = some read →
      writer.tables.items id = some (read.stored members)
  | .bookmarks item => writer.tables.bookmarks item =
      (readBookmarks spell serde (answered.getD 0 [])).stored members
  | .wish wish => writer.tables.wishes wish =
      (readWish spell serde (answered.getD 0 []) (answered.getD 1 [])).stored members

/-- A unit is among those that wait for content. -/
def Waits (writer : ReadModelWriter serde) : WorkUnit → Prop
  | .item id => id ∈ writer.itemsWaitingForContent
  | .bookmarks item => item ∈ writer.itemsWithBookmarksWaitingForContent
  | .wish wish => wish ∈ writer.wishesWaitingForContent

variable {spell iroh}

section Answers

variable {unit : WorkUnit} {answered : List (List Answered)} {looked : List Answered} {ask : Ask}

theorem FromDocs.nil {P : Document → Prop} : FromDocs spell iroh P unit [] := by
  intro i looked h
  rw [List.getElem?_nil] at h
  cases h

theorem Contents.nil {P : Answered → Prop} : Contents spell iroh P unit [] := by
  intro i ask looked _ _ h
  rw [List.getElem?_nil] at h
  cases h

theorem Proper.nil : Proper unit [] := fun _ h => absurd h (Nat.not_lt_zero _)

theorem FromDocs.imp {P Q : Document → Prop} (h : FromDocs spell iroh P unit answered)
    (hpq : ∀ document, P document → Q document) : FromDocs spell iroh Q unit answered := by
  intro i looked hlooked
  obtain ⟨ask, hask, document, hdocument, hentries⟩ := h i looked hlooked
  exact ⟨ask, hask, document, hpq document hdocument, hentries⟩

theorem Contents.imp {P Q : Answered → Prop} (h : Contents spell iroh P unit answered)
    (hpq : ∀ answer, P answer → Q answer) : Contents spell iroh Q unit answered :=
  fun i ask looked hask hwants hlooked answer hmem =>
    hpq answer (h i ask looked hask hwants hlooked answer hmem)

/-- A query asked next is at its place in the read. -/
theorem getElem?_of_nextAsk (h : nextAsk spell iroh unit answered = some ask) :
    absent unit answered = false ∧ (asks spell iroh unit)[answered.length]? = some ask := by
  rw [nextAsk] at h
  split at h
  · cases h
  · exact ⟨Bool.eq_false_iff.mpr ‹_›, h⟩

/-- The answers of one more query. -/
theorem getElem?_snoc_cases {i : ℕ} {found : List Answered}
    (h : (answered ++ [looked])[i]? = some found) :
    answered[i]? = some found ∨ i = answered.length ∧ found = looked := by
  rw [List.getElem?_append] at h
  split at h
  · exact Or.inl h
  · rename_i hle
    rw [List.getElem?_singleton] at h
    split at h
    · exact Or.inr ⟨by omega, (Option.some.inj h).symm⟩
    · cases h

theorem FromDocs.snoc {P : Document → Prop} {document : Document}
    (h : FromDocs spell iroh P unit answered) (hask : nextAsk spell iroh unit answered = some ask)
    (hdocument : P document) (hlooked : looked.map Prod.fst = ask.entries document) :
    FromDocs spell iroh P unit (answered ++ [looked]) := by
  intro i found hfound
  rcases getElem?_snoc_cases hfound with hold | ⟨rfl, rfl⟩
  · exact h i found hold
  · exact ⟨ask, (getElem?_of_nextAsk hask).2, document, hdocument, hlooked⟩

theorem Contents.snoc {P : Answered → Prop} (h : Contents spell iroh P unit answered)
    (hask : nextAsk spell iroh unit answered = some ask)
    (hlooked : ask.wantsContent = true → ∀ answer ∈ looked, P answer) :
    Contents spell iroh P unit (answered ++ [looked]) := by
  intro i asked found hasked hwants hfound
  rcases getElem?_snoc_cases hfound with hold | ⟨rfl, rfl⟩
  · exact h i asked found hasked hwants hold
  · obtain rfl : ask = asked := Option.some.inj ((getElem?_of_nextAsk hask).2.symm.trans hasked)
    exact hlooked hwants

theorem Proper.snoc (h : Proper unit answered) (hask : nextAsk spell iroh unit answered = some ask) :
    Proper unit (answered ++ [looked]) := by
  intro n hn
  rw [List.length_append, List.length_singleton] at hn
  rcases Nat.lt_succ_iff_lt_or_eq.mp hn with hlt | rfl
  · rw [List.take_append_of_le_length hlt.le]
    exact h n hlt
  · rw [List.take_left]
    exact (getElem?_of_nextAsk hask).1

/-- An item that was asked about further was not absent. -/
theorem Proper.own_ne_nil {id : ItemId} (h : Proper (.item id) answered)
    (hlong : 1 < answered.length) : answered.getD 0 [] ≠ [] := by
  have hnot := h 1 hlong
  rcases answered with _ | ⟨own, rest⟩
  · exact absurd hlong (by simp)
  · intro hown
    obtain rfl : own = [] := hown
    simp [absent] at hnot

theorem getD_of_getElem? {i : ℕ} (h : answered[i]? = some looked) : answered.getD i [] = looked := by
  rw [List.getD_eq_getElem?_getD, h, Option.getD_some]

/-- A community query answers with entries that count. -/
theorem FromDocs.counted {P : Document → Prop} (h : FromDocs spell iroh P unit answered) {i : ℕ}
    {under : Bytes} (hask : (asks spell iroh unit)[i]? = some (Ask.counting spell under))
    (hlooked : answered[i]? = some looked) {answer : Answered} (hmem : answer ∈ looked) :
    (counted spell answer.1).isSome = true := by
  obtain ⟨ask, hask', document, -, hentries⟩ := h i looked hlooked
  obtain rfl : Ask.counting spell under = ask := Option.some.inj (hask.symm.trans hask')
  have hentry : answer.1 ∈ (Ask.counting spell under).entries document :=
    hentries ▸ List.mem_map_of_mem hmem
  exact (List.mem_filter.mp hentry).2

/-! ## What waits for content -/

theorem take_waitingForContent {α : Type} (decode : Bytes → Option α) (read : CommunityEntries α)
    (answer : Answered) :
    (CommunityEntries.take spell decode read answer).waitingForContent = true ↔
      read.waitingForContent = true ∨
        (Distlib.counted spell answer.1).isSome = true ∧ answer.2 = none := by
  rw [CommunityEntries.take]
  rcases Distlib.counted spell answer.1 with _ | key
  · simp
  · rcases answer.2 with _ | value
    · simp
    · rcases hdecoded : decode value with _ | decoded <;> simp [hdecoded]

/-- Community entries wait for content exactly if some that counts was without. -/
theorem readCommunityEntries_waitingForContent {α : Type} (decode : Bytes → Option α)
    (answers : List Answered) :
    (readCommunityEntries spell decode answers).waitingForContent = true ↔
      ∃ answer ∈ answers, (Distlib.counted spell answer.1).isSome = true ∧ answer.2 = none := by
  have hfold : ∀ read : CommunityEntries α,
      (answers.foldl (CommunityEntries.take spell decode) read).waitingForContent = true ↔
        read.waitingForContent = true ∨
          ∃ answer ∈ answers, (Distlib.counted spell answer.1).isSome = true ∧ answer.2 = none := by
    induction answers with
    | nil => intro read; simp
    | cons answer rest ih =>
      intro read
      rw [List.foldl_cons, ih, take_waitingForContent, List.exists_mem_cons_iff, or_assoc]
  rw [readCommunityEntries, hfold]
  simp

theorem mem_waitingAfter_self {K : Type} [Ord K] [Std.TransOrd K] [Std.LawfulEqOrd K]
    (waiting : OrdSet K) (id : K) : id ∈ waitingAfter waiting id true := by
  simp [waitingAfter]

theorem mem_waitingAfter_of_ne {K : Type} [Ord K] [Std.TransOrd K] [Std.LawfulEqOrd K]
    {waiting : OrdSet K} {id other : K} (hne : other ≠ id) (waits : Bool) :
    other ∈ waitingAfter waiting id waits ↔ other ∈ waiting := by
  have hcmp : compare id other ≠ .eq := fun h => hne (Std.LawfulEqCmp.eq_of_compare h).symm
  cases waits
  · simp [waitingAfter, Std.ExtTreeSet.mem_erase, hcmp]
  · simp [waitingAfter, Std.ExtTreeSet.mem_insert, hcmp]

/-- A community query that was answered with an entry without its content leaves its
read waiting. -/
theorem FromDocs.waits {P : Document → Prop} (h : FromDocs spell iroh P unit answered) {i : ℕ}
    {under : Bytes} (hask : (asks spell iroh unit)[i]? = some (Ask.counting spell under))
    (hlooked : answered[i]? = some looked) {answer : Answered} (hmem : answer ∈ looked)
    (hnone : answer.2 = none) {α : Type} (decode : Bytes → Option α) :
    (readCommunityEntries spell decode (answered.getD i [])).waitingForContent = true := by
  rw [readCommunityEntries_waitingForContent, getD_of_getElem? hlooked]
  exact ⟨answer, hmem, h.counted hask hlooked hmem, hnone⟩

/-- **What a read was without, it is remembered for**: a unit some answer of which had
no content waits for content once it was taken in. -/
theorem takeUnit_waits {P : Document → Prop} (writer : ReadModelWriter serde)
    (hfrom : FromDocs spell iroh P unit answered) (hproper : Proper unit answered)
    (hmissing : ¬Contents spell iroh (fun answer => answer.2 ≠ none) unit answered) :
    Waits (takeUnit spell iroh writer answered unit) unit := by
  simp only [Contents, ne_eq, not_forall, not_not] at hmissing
  obtain ⟨i, ask, looked, hask, hwants, hlooked, answer, hmem, hnone⟩ := hmissing
  cases unit with
  | bookmarks item =>
    rcases i with _ | i
    · have hread := hfrom.waits rfl hlooked hmem hnone (Bookmark.decode serde)
      simp only [takeUnit, ReadModelWriter.takeBookmarks, Waits, readBookmarks, hread]
      exact mem_waitingAfter_self ..
    · simp [asks] at hask
  | wish wish =>
    rcases i with _ | _ | i
    · have hread := hfrom.waits rfl hlooked hmem hnone (Wish.decode serde)
      simp only [takeUnit, ReadModelWriter.takeWish, Waits, readWish, hread, Bool.true_or]
      exact mem_waitingAfter_self ..
    · have hread := hfrom.waits rfl hlooked hmem hnone (Comment.decode serde)
      simp only [takeUnit, ReadModelWriter.takeWish, Waits, readWish, hread, Bool.or_true]
      exact mem_waitingAfter_self ..
    · simp [asks] at hask
  | item id =>
    have hown : (itemAnswersOf answered).own ≠ [] := by
      rcases Nat.eq_zero_or_pos i with rfl | hpos
      · exact (getD_of_getElem? hlooked).trans_ne (List.ne_nil_of_mem hmem)
      · have hlong := (List.getElem?_eq_some_iff.mp hlooked).1
        exact hproper.own_ne_nil (by omega)
    have hwait : ∀ read, readItem spell serde iroh id (itemAnswersOf answered) = some read →
        read.waitingForContent = true := by
      intro read hread
      rw [readItem, if_neg hown] at hread
      obtain rfl := Option.some.inj hread
      rcases i with _ | _ | _ | _ | i
      · have hlooked' : (itemAnswersOf answered).own = looked := getD_of_getElem? hlooked
        have hany : (itemAnswersOf answered).own.any (fun answer => answer.2.isNone) = true := by
          rw [hlooked', List.any_eq_true]
          exact ⟨answer, hmem, by rw [hnone]; rfl⟩
        simp only [hany, Bool.true_or]
      · have hratings := hfrom.waits rfl hlooked hmem hnone (Rating.decode serde)
        simp only [itemAnswersOf, hratings, Bool.or_true, Bool.true_or]
      · have hreviews := hfrom.waits rfl hlooked hmem hnone (Review.decode serde)
        simp only [itemAnswersOf, hreviews, Bool.or_true]
      · obtain rfl := Option.some.inj hask
        cases hwants
      · simp [asks] at hask
    rcases hread : readItem spell serde iroh id (itemAnswersOf answered) with _ | read
    · rw [readItem, if_neg hown] at hread
      cases hread
    · simp only [takeUnit, hread, ReadModelWriter.takeItem, Waits, hwait read hread,
        Bool.false_eq_true, if_false]
      exact mem_waitingAfter_self ..

/-! ## What is written -/

/-- **What was read is written.** -/
theorem takeUnit_written (writer : ReadModelWriter serde) (unit : WorkUnit) :
    Written spell iroh (takeUnit spell iroh writer answered unit) writer.members answered unit := by
  cases unit with
  | item id =>
    intro read hread
    rw [takeUnit, writer.takeItem_items _ (fun found hfound => readItem_id hfound), if_pos rfl, hread]
    rfl
  | bookmarks item => exact Function.update_self ..
  | wish wish => exact Function.update_self ..

/-- A read tells the writer of no other members. -/
theorem takeUnit_members (writer : ReadModelWriter serde) (unit : WorkUnit) :
    (takeUnit spell iroh writer answered unit).members = writer.members := by
  cases unit with
  | item id =>
    rw [takeUnit]
    rcases readItem spell serde iroh id (itemAnswersOf answered) with _ | read
    · rfl
    · rfl
  | bookmarks item => rfl
  | wish wish => rfl

/-- **Nothing else is touched**: the rows of the other units. -/
theorem takeUnit_written_other (writer : ReadModelWriter serde) {unit other : WorkUnit}
    (hne : other ≠ unit) (members : Finset MemberId) (answers : List (List Answered)) :
    Written spell iroh (takeUnit spell iroh writer answered unit) members answers other ↔
      Written spell iroh writer members answers other := by
  cases unit with
  | item id =>
    cases other with
    | item id' =>
      have hne' : id' ≠ id := fun h => hne (congrArg WorkUnit.item h)
      simp only [Written, takeUnit]
      rw [writer.takeItem_items _ (fun found hfound => readItem_id hfound), if_neg hne']
    | bookmarks item =>
      simp only [Written, takeUnit]
      rw [(writer.takeItem_frame id false _).1]
    | wish wish =>
      simp only [Written, takeUnit]
      rw [(writer.takeItem_frame id false _).2.1]
  | bookmarks item =>
    cases other with
    | bookmarks item' =>
      have hne' : item' ≠ item := fun h => hne (congrArg WorkUnit.bookmarks h)
      simp only [Written, takeUnit, ReadModelWriter.takeBookmarks, Tables.replaceBookmarks,
        Bool.false_eq_true, if_false, Function.update_of_ne hne']
    | _ => exact Iff.rfl
  | wish wish =>
    cases other with
    | wish wish' =>
      have hne' : wish' ≠ wish := fun h => hne (congrArg WorkUnit.wish h)
      simp only [Written, takeUnit, ReadModelWriter.takeWish, Tables.replaceWish,
        Bool.false_eq_true, if_false, Function.update_of_ne hne']
    | _ => exact Iff.rfl

/-- Nor do the other units wait for anything else. -/
theorem takeUnit_waits_other (writer : ReadModelWriter serde) {unit other : WorkUnit}
    (hne : other ≠ unit) :
    Waits (takeUnit spell iroh writer answered unit) other ↔ Waits writer other := by
  cases unit with
  | item id =>
    simp only [takeUnit]
    rcases readItem spell serde iroh id (itemAnswersOf answered) with _ | read
    · exact Iff.rfl
    · cases other with
      | item id' => exact mem_waitingAfter_of_ne (fun h => hne (congrArg WorkUnit.item h)) _
      | _ => exact Iff.rfl
  | bookmarks item =>
    cases other with
    | bookmarks item' => exact mem_waitingAfter_of_ne (fun h => hne (congrArg WorkUnit.bookmarks h)) _
    | _ => exact Iff.rfl
  | wish wish =>
    cases other with
    | wish wish' => exact mem_waitingAfter_of_ne (fun h => hne (congrArg WorkUnit.wish h)) _
    | _ => exact Iff.rfl

/-- A batch is read again for what it has, and for what waits for content if some has
arrived. -/
theorem mem_jobs {writer : ReadModelWriter serde} {batch : Batch} {unit : WorkUnit} :
    unit ∈ jobs writer batch ↔
      batch.Has unit ∨ batch.contentArrived = true ∧ Waits writer unit := by
  cases hcontent : batch.contentArrived <;> cases unit <;>
    simp [jobs, hcontent, Batch.Has, Waits, Std.ExtTreeSet.mem_union_iff]

end Answers

end Reads

end Distlib
