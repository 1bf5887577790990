import Distlib.Store.Replay

/-!
# Nobody speaks for another member

A community key names the member who says it, and anybody can write at any key. A
read counts an entry only if its author is the member its key names, so what somebody
else writes at a member's keys, a value or a deletion, is not there for any read: two
documents that differ only in that are read alike (`reads_alike`).

Which items and wishes a replay reads at all is another matter. The listings take the
newest entry per key across authors and leave a deleted one out, so a newer deletion
of somebody else's at a member's only bookmark on an item takes the item off the list,
and a replay passes over what the member said. So two replays over the same tables
project the same words of a member exactly if the two documents list the same, but
for what the tables already had right (`Unhidden`, `replays_alike_iff`).
-/

namespace Distlib

/-! ## What somebody else wrote in a member's name -/

/-- An entry at a key that names `member`, by somebody else. -/
def foreign (spell : Spellings) (member : MemberId) (entry : DocEntry) : Bool :=
  (CommunityKey.parse spell entry.key).any fun key =>
    key.member = member && entry.author ≠ member.author

/-- The documents differ only in what others wrote at keys naming `member`. -/
def SameBut (spell : Spellings) (member : MemberId) (first second : Document) : Prop :=
  (first.entries.filter fun entry => !foreign spell member entry) =
    second.entries.filter fun entry => !foreign spell member entry

instance (spell : Spellings) (member : MemberId) (first second : Document) :
    Decidable (SameBut spell member first second) :=
  inferInstanceAs (Decidable (_ = _))

/-! ## What the tables say a member said -/

/-- A member's own rows. -/
@[ext]
structure Said (serde : Serde) where
  ratings : ItemId → Option Rating
  reviews : ItemId → Option Review
  bookmarks : ItemId → List StoredBookmark
  wishes : WishId → Option (Wish serde)
  comments : WishId → Option Comment

def Tables.saidBy {serde : Serde} (tables : Tables serde) (member : MemberId) : Said serde where
  ratings item := (tables.items item).bind fun stored => stored.ratings[member]?
  reviews item := (tables.items item).bind fun stored => stored.reviews[member]?
  bookmarks item := (tables.bookmarks item).filter fun bookmark => bookmark.member = member
  wishes wish := (tables.wishes wish).entries[member]?
  comments wish := (tables.wishes wish).comments[member]?

section Alike

variable {spell : Spellings} {serde : Serde} {iroh : Iroh} {member : MemberId}
  {first second : Document} {here : Finset ContentHash}

/-! ## Reads -/

/-- A filter that keeps none of the foreign entries sees the same in both documents. -/
theorem SameBut.filter_eq (h : SameBut spell member first second) (p : DocEntry → Bool)
    (hp : ∀ entry, p entry = true → foreign spell member entry = false) :
    first.entries.filter p = second.entries.filter p := by
  have hsplit : ∀ entries : List DocEntry, entries.filter p =
      (entries.filter fun entry => !foreign spell member entry).filter p := by
    intro entries
    rw [List.filter_filter]
    refine List.filter_congr fun entry _ => ?_
    rcases hentry : p entry with _ | _
    · rfl
    · rw [hp entry hentry]
      rfl
  rw [hsplit, h, ← hsplit]

/-- At an item's own keys there is nothing foreign. -/
theorem foreign_of_item {entry : DocEntry} (h : Key.allItems <+: entry.key) :
    foreign spell member entry = false := by
  rw [foreign, CommunityKey.parse_of_item h]
  rfl

/-- An entry that counts is nobody else's. -/
theorem foreign_of_counted {entry : DocEntry} {key : CommunityKey}
    (h : counted spell entry = some key) : foreign spell member entry = false := by
  rw [counted, Option.filter_eq_some_iff] at h
  obtain ⟨hparse, hauthor⟩ := h
  rw [foreign, hparse, Option.any_some, Bool.and_eq_false_iff]
  by_cases hmember : key.member = member
  · right
    rw [← hmember]
    simpa using hauthor
  · exact Or.inl (decide_eq_false hmember)

/-- What is read of some answers is read of those that count. -/
theorem readCommunityEntries_filter {α : Type} (decode : Bytes → Option α) (answers : List Answered) :
    readCommunityEntries spell decode answers =
      readCommunityEntries spell decode
        (answers.filter fun answer => (counted spell answer.1).isSome) := by
  rw [readCommunityEntries, readCommunityEntries, List.foldl_filter]
  congr 1
  funext read answer
  rw [CommunityEntries.take]
  rcases counted spell answer.1 with _ | key <;> rfl

/-- **A community read is of the member's own words.** -/
theorem SameBut.readCommunityEntries_eq (h : SameBut spell member first second) {α : Type}
    (decode : Bytes → Option α) (under : Bytes) :
    readCommunityEntries spell decode ((Catalogue.mk first here).answers iroh (first.all under)) =
      readCommunityEntries spell decode
        ((Catalogue.mk second here).answers iroh (second.all under)) := by
  have hread : ∀ document : Document,
      readCommunityEntries spell decode
          ((Catalogue.mk document here).answers iroh (document.all under)) =
        readCommunityEntries spell decode
          ((document.entries.filter fun entry =>
            (counted spell entry).isSome && (under.isPrefixOf entry.key && entry.content.isSome)).map
              fun entry => (entry, (Catalogue.mk document here).content iroh entry)) := by
    intro document
    rw [readCommunityEntries_filter, Catalogue.answers, Document.all, List.filter_map,
      List.filter_filter]
    rfl
  rw [hread, hread, h.filter_eq _ fun entry hentry => ?_]
  · rfl
  · obtain ⟨key, hkey⟩ := Option.isSome_iff_exists.mp (Bool.and_eq_true_iff.mp hentry).1
    exact foreign_of_counted hkey

/-- Under the items nothing foreign is asked for, and nothing is newest that was not. -/
theorem SameBut.singleLatestPerKey_eq (h : SameBut spell member first second) (iroh : Iroh)
    {under : Bytes}
    (hunder : Key.allItems <+: under) :
    first.singleLatestPerKey iroh under = second.singleLatestPerKey iroh under := by
  have hkey : ∀ {key : Bytes}, under.isPrefixOf key = true → Key.allItems <+: key := fun hbelow =>
    hunder.trans (List.isPrefixOf_iff_prefix.mp hbelow)
  have hat : ∀ {key : Bytes}, Key.allItems <+: key → first.entriesAt key = second.entriesAt key := by
    intro key hitem
    refine h.filter_eq _ fun entry hentry => foreign_of_item ?_
    rw [of_decide_eq_true hentry]
    exact hitem
  have hfirst : first.singleLatestPerKey iroh under = first.entries.filter fun entry =>
      under.isPrefixOf entry.key && entry.content.isSome &&
        iroh.newest (second.entriesAt entry.key) = some entry := by
    refine List.filter_congr fun entry _ => ?_
    rcases hbelow : under.isPrefixOf entry.key with _ | _
    · rfl
    · rw [hat (hkey hbelow)]
  rw [hfirst]
  refine h.filter_eq _ fun entry hentry => foreign_of_item ?_
  rw [Bool.and_eq_true, Bool.and_eq_true] at hentry
  exact hkey hentry.1.1

theorem SameBut.all_eq (h : SameBut spell member first second) {under : Bytes}
    (hunder : Key.allItems <+: under) : first.all under = second.all under := by
  refine h.filter_eq _ fun entry hentry => foreign_of_item ?_
  rw [Bool.and_eq_true] at hentry
  exact hunder.trans (List.isPrefixOf_iff_prefix.mp hentry.1)

/-- One item's keys are items' keys. -/
theorem Key.allItems_prefixOf (spell : Spellings) (item : ItemId) : Key.allItems <+: Key.prefixOf spell item :=
  ⟨path [spell.item.print item, []], by
    rw [Key.allItems, Key.prefixOf, path, path, path, List.append_assoc]
    rfl⟩

/-- **Documents that differ only in what others wrote in a member's name are read
alike**: every item, every item's bookmarks, every wish, and the list of items. -/
theorem SameBut.reads_alike (h : SameBut spell member first second) (serde : Serde) (iroh : Iroh)
    (here : Finset ContentHash) :
    (Catalogue.mk first here).readItem spell serde iroh =
        (Catalogue.mk second here).readItem spell serde iroh ∧
      (Catalogue.mk first here).readBookmarks spell serde iroh =
        (Catalogue.mk second here).readBookmarks spell serde iroh ∧
      (Catalogue.mk first here).readWish spell serde iroh =
        (Catalogue.mk second here).readWish spell serde iroh ∧
      (Catalogue.mk first here).itemIds spell iroh = (Catalogue.mk second here).itemIds spell iroh := by
  refine ⟨funext fun item => ?_, funext fun item => ?_, funext fun wish => ?_, ?_⟩
  · have hown := h.singleLatestPerKey_eq iroh (Key.allItems_prefixOf spell item)
    have hfiles := h.all_eq (Key.allItems_prefixOf spell item)
    simp only [Catalogue.readItem, readItem, Catalogue.itemAnswers, hown, hfiles,
      h.readCommunityEntries_eq]
    rfl
  · simp only [Catalogue.readBookmarks, readBookmarks, h.readCommunityEntries_eq]
  · simp only [Catalogue.readWish, readWish, h.readCommunityEntries_eq]
  · have hall := h.singleLatestPerKey_eq iroh List.prefix_rfl
    rw [Catalogue.itemIds, Catalogue.itemIds, hall]

/-! ## Passes -/

variable {writer : ReadModelWriter serde}

/-- So is every pass over any items, bookmarks and wishes. -/
theorem SameBut.passes_alike (h : SameBut spell member first second)
    (writer : ReadModelWriter serde) (iroh : Iroh) (here : Finset ContentHash) (faults : Faults) :
    writer.projectItems spell iroh faults ⟨first, here⟩ =
        writer.projectItems spell iroh faults ⟨second, here⟩ ∧
      writer.projectBookmarks spell iroh faults ⟨first, here⟩ =
        writer.projectBookmarks spell iroh faults ⟨second, here⟩ ∧
      writer.projectWishes spell iroh faults ⟨first, here⟩ =
        writer.projectWishes spell iroh faults ⟨second, here⟩ := by
  obtain ⟨hitem, hbookmarks, hwish, -⟩ := h.reads_alike serde iroh here
  refine ⟨funext fun items => ?_, funext fun items => ?_, funext fun wishes => ?_⟩
  · rw [ReadModelWriter.projectItems, ReadModelWriter.projectItems, hitem]
  · rw [ReadModelWriter.projectBookmarks, ReadModelWriter.projectBookmarks, hbookmarks]
  · rw [ReadModelWriter.projectWishes, ReadModelWriter.projectWishes, hwish]

theorem SameBut.projection_eq (h : SameBut spell member first second) (serde : Serde) (iroh : Iroh)
    (here : Finset ContentHash) (members : Finset MemberId) :
    projection spell serde iroh ⟨first, here⟩ members =
      projection spell serde iroh ⟨second, here⟩ members := by
  obtain ⟨hitem, hbookmarks, hwish, -⟩ := h.reads_alike serde iroh here
  rw [projection, projection, hitem, hbookmarks, hwish]

/-- Where the listings of the two catalogues differ, the tables already say of the
member what the document does. -/
structure Unhidden (spell : Spellings) (iroh : Iroh) (member : MemberId)
    (first second : Catalogue) (members : Finset MemberId) {serde : Serde} (tables : Tables serde) :
    Prop where
  bookmarks : ∀ item,
    (item ∈ first.bookmarkedItemIds spell iroh ↔ item ∈ second.bookmarkedItemIds spell iroh) ∨
      (tables.saidBy member).bookmarks item =
        ((projection spell serde iroh first members).saidBy member).bookmarks item
  wishes : ∀ wish,
    (wish ∈ first.wishIds spell iroh ↔ wish ∈ second.wishIds spell iroh) ∨
      ((tables.saidBy member).wishes wish =
          ((projection spell serde iroh first members).saidBy member).wishes wish ∧
        (tables.saidBy member).comments wish =
          ((projection spell serde iroh first members).saidBy member).comments wish)

/-- Two ways of choosing between what is new and what was there agree when they
choose alike, or when there is nothing to choose. -/
theorem ite_eq_ite_iff {α : Type*} {p q : Prop} [Decidable p] [Decidable q] {new old : α} :
    ((if p then new else old) = if q then new else old) ↔ (p ↔ q) ∨ old = new := by
  by_cases hp : p <;> by_cases hq : q <;> simp [hp, hq, eq_comm]

/-- What a replay leaves of a member's bookmarks on an item. -/
theorem saidBy_replay_bookmarks (catalogue : Catalogue) (item : ItemId) :
    ((writer.replay spell iroh .none catalogue).tables.saidBy member).bookmarks item =
      if item ∈ catalogue.bookmarkedItemIds spell iroh then
        ((projection spell serde iroh catalogue writer.members).saidBy member).bookmarks item
      else (writer.tables.saidBy member).bookmarks item := by
  simp only [Tables.saidBy, writer.replay_bookmarks]
  split <;> rfl

/-- What a replay leaves of a member's entry for a wish, and comment on it. -/
theorem saidBy_replay_wishes (catalogue : Catalogue) (wish : WishId) :
    (((writer.replay spell iroh .none catalogue).tables.saidBy member).wishes wish,
        ((writer.replay spell iroh .none catalogue).tables.saidBy member).comments wish) =
      if wish ∈ catalogue.wishIds spell iroh then
        (((projection spell serde iroh catalogue writer.members).saidBy member).wishes wish,
          ((projection spell serde iroh catalogue writer.members).saidBy member).comments wish)
      else ((writer.tables.saidBy member).wishes wish, (writer.tables.saidBy member).comments wish) := by
  simp only [Tables.saidBy, writer.replay_wishes]
  split <;> rfl

end Alike

/-- **Two replays project the same words of a member exactly where nothing is hidden.**
Take two documents that differ only in what others wrote at keys naming the member,
whatever the tables before. Every re-read projects the same of the member; and two
replays do if and only if each item's bookmarks and each wish are listed by both
documents or by neither, or the tables already had them right. -/
theorem replays_alike_iff (spell : Spellings) (serde : Serde) (iroh : Iroh) (member : MemberId)
    (first second : Document) (here : Finset ContentHash) (writer : ReadModelWriter serde)
    (hsame : SameBut spell member first second) :
    ((∀ items, (writer.projectItems spell iroh .none ⟨first, here⟩ items).tables.saidBy member =
          (writer.projectItems spell iroh .none ⟨second, here⟩ items).tables.saidBy member) ∧
        (∀ items, (writer.projectBookmarks spell iroh .none ⟨first, here⟩ items).tables.saidBy member =
          (writer.projectBookmarks spell iroh .none ⟨second, here⟩ items).tables.saidBy member) ∧
        (∀ wishes, (writer.projectWishes spell iroh .none ⟨first, here⟩ wishes).tables.saidBy member =
          (writer.projectWishes spell iroh .none ⟨second, here⟩ wishes).tables.saidBy member) ∧
        (writer.replay spell iroh .none ⟨first, here⟩).tables.saidBy member =
          (writer.replay spell iroh .none ⟨second, here⟩).tables.saidBy member) ↔
      Unhidden spell iroh member ⟨first, here⟩ ⟨second, here⟩ writer.members writer.tables := by
  obtain ⟨hitems, hbookmarks, hwishes⟩ := hsame.passes_alike writer iroh here .none
  have hprojection := hsame.projection_eq serde iroh here writer.members
  have hids := (hsame.reads_alike serde iroh here).2.2.2
  constructor
  · rintro ⟨-, -, -, hreplay⟩
    refine ⟨fun item => ?_, fun wish => ?_⟩
    · have hrow := congrArg (fun said : Said serde => said.bookmarks item) hreplay
      simp only [saidBy_replay_bookmarks, ← hprojection] at hrow
      exact ite_eq_ite_iff.mp hrow
    · have hrow := congrArg (fun said : Said serde => (said.wishes wish, said.comments wish)) hreplay
      simp only [saidBy_replay_wishes, ← hprojection] at hrow
      exact (ite_eq_ite_iff.mp hrow).imp_right Prod.mk.inj
  · intro h
    refine ⟨fun items => by rw [hitems], fun items => by rw [hbookmarks],
      fun wishes => by rw [hwishes], ?_⟩
    have hrows : (writer.replay spell iroh .none ⟨first, here⟩).tables.items =
        (writer.replay spell iroh .none ⟨second, here⟩).tables.items := by
      funext id
      rw [writer.replay_items, writer.replay_items, hids, hprojection]
    have hwish : ∀ wish,
        (((writer.replay spell iroh .none ⟨first, here⟩).tables.saidBy member).wishes wish,
            ((writer.replay spell iroh .none ⟨first, here⟩).tables.saidBy member).comments wish) =
          (((writer.replay spell iroh .none ⟨second, here⟩).tables.saidBy member).wishes wish,
            ((writer.replay spell iroh .none ⟨second, here⟩).tables.saidBy member).comments wish) := by
      intro wish
      rw [saidBy_replay_wishes, saidBy_replay_wishes, ← hprojection]
      exact ite_eq_ite_iff.mpr ((h.wishes wish).imp_right fun hboth =>
        Prod.mk.injEq .. ▸ hboth)
    refine Said.ext (funext fun id => ?_) (funext fun id => ?_) (funext fun item => ?_)
      (funext fun wish => ?_) (funext fun wish => ?_)
    · simp only [Tables.saidBy, hrows]
    · simp only [Tables.saidBy, hrows]
    · rw [saidBy_replay_bookmarks, saidBy_replay_bookmarks, ← hprojection]
      exact ite_eq_ite_iff.mpr (h.bookmarks item)
    · exact (Prod.mk.inj (hwish wish)).1
    · exact (Prod.mk.inj (hwish wish)).2

/-! ## A deletion by somebody else -/

namespace Sample

/-- Carol deletes what is at the key of Bob's bookmark. -/
def withForeignDeletion : Document :=
  ⟨[bookmarked, ⟨carol.author, bookmarkKey, 20, none⟩], by decide +kernel⟩

/-- Carol writes at that key, and Bob's entry is not the newest there. -/
def withForeignValue : Document :=
  ⟨[bookmarked, ⟨carol.author, bookmarkKey, 20, some ⟨1⟩⟩], by decide +kernel⟩

/-- Carol's value changes nothing of what is projected for Bob. -/
theorem replays_alike_foreign_value :
    ((ReadModelWriter.start (.empty : Tables serde) {bob}).replay .hex iroh .none
        withBookmark).tables.saidBy bob =
      ((ReadModelWriter.start (.empty : Tables serde) {bob}).replay .hex iroh .none
        ⟨withForeignValue, {⟨1⟩}⟩).tables.saidBy bob := by
  have hlisted : withBookmark.bookmarkedItemIds .hex iroh =
      (Catalogue.mk withForeignValue {⟨1⟩}).bookmarkedItemIds .hex iroh := by decide +kernel
  have hwishes : withBookmark.wishIds .hex iroh =
      (Catalogue.mk withForeignValue {⟨1⟩}).wishIds .hex iroh := by decide +kernel
  have h := replays_alike_iff .hex serde iroh bob withBookmark.document withForeignValue {⟨1⟩}
    (.start .empty {bob}) (by decide +kernel)
  refine (h.mpr ⟨fun item => Or.inl ?_, fun wish => Or.inl ?_⟩).2.2.2
  · exact iff_of_eq (congrArg (item ∈ ·) hlisted)
  · exact iff_of_eq (congrArg (wish ∈ ·) hwishes)

/-- Carol's deletion takes Bob's bookmark out of a replay. -/
theorem replays_differ :
    SameBut .hex bob withBookmark.document withForeignDeletion ∧
      ((ReadModelWriter.start (.empty : Tables serde) {bob}).replay .hex iroh .none
          withBookmark).tables.saidBy bob ≠
        ((ReadModelWriter.start (.empty : Tables serde) {bob}).replay .hex iroh .none
          ⟨withForeignDeletion, {⟨1⟩}⟩).tables.saidBy bob := by
  have hsaid : (((ReadModelWriter.start (.empty : Tables serde) {bob}).replay .hex iroh .none
      withBookmark).tables.saidBy bob).bookmarks book ≠ [] := by decide +kernel
  have hnone : (((ReadModelWriter.start (.empty : Tables serde) {bob}).replay .hex iroh .none
      ⟨withForeignDeletion, {⟨1⟩}⟩).tables.saidBy bob).bookmarks book = [] := by decide +kernel
  refine ⟨by decide +kernel, fun h => hsaid ?_⟩
  rw [h, hnone]

end Sample

end Distlib
