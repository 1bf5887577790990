import Distlib.Custody.View
import Distlib.Lib.GuardedRun
import Distlib.Store.Projection

/-!
# Since when an item is whose

A member is not blamed for an item it has only just been made custodian of, or for a file
that has only just been added: every item is dated, and coverage counts only what is older
than the time custody takes to settle. The date is that of the whole pass, or of the last
update since that found the item new or its files changed.

An update does not see files, though, nor who the custodians were. It compares two numbers,
the item's size and what it asks of the group. An item added again by another member has the
same files and one creator more, who is custodian no longer; a file can be exchanged for one
of the same size, and an empty one added. Such an item keeps its date.

`dated_iff` says which runs date every change, and what that is good for: coverage then counts
nothing that changed less than the settling time ago.
-/

namespace Distlib

open GuardedRun OrdMap Ranking

theorem MemberId.place_injective : Function.Injective MemberId.place := fun _ _ h =>
  MemberId.place_inj h

namespace StoredItem

/-- Who added the item: whoever wrote any of its file keys. -/
def creators (stored : StoredItem) : Finset MemberId :=
  stored.fileAuthors.toList.foldl (fun all entry => all ∪ entry.2) ∅

/-- The files of an item. -/
def files (stored : StoredItem) : Finset ContentHash := keySet stored.item.files

/-- The item as custody sees it: its creators, and all of its files' size, which saturates. -/
def custodyItem (stored : StoredItem) : CustodyItem where
  item := stored.item.id
  creators := sortedBy MemberId.place MemberId.place_injective stored.creators
  sizeBytes := stored.item.files.toList.foldl
    (fun total file => min (total + file.2.size.toNat) (2 ^ 64 - 1)) 0

end StoredItem

/-- When the custodians of an item were last worked out, if it is known. -/
def CustodyView.assignedSince (view : CustodyView) (item : ItemId) : Option ℕ :=
  (view.items[item]?).map Part.since

/-! ## Coverage -/

/-- Of the items this node holds that a member should hold too, how many it announces. -/
structure MemberCoverage where
  expected : ℕ
  announced : ℕ
  deriving DecidableEq

section Score

variable {S : Type} [LinearOrder S] (score : ItemId → MemberId → ℕ → S) (sel : Selection (Ranked S))

/-- One more item that `custodian` should hold. -/
def MemberCoverage.expect (announces : Bool) (coverage : MemberCoverage) : MemberCoverage :=
  ⟨coverage.expected + 1, if announces then coverage.announced + 1 else coverage.announced⟩

/-- Each judged member's coverage of `held`, each item with when its custodians were worked
out: only the items assigned long enough ago count. -/
def count (group : CustodyGroup) (held : List (CustodyItem × ℕ)) (judged : List MemberId)
    (holders : ItemId → List MemberId) (oldEnough : ℕ → Bool) : OrdMap MemberId MemberCoverage :=
  (held.filter fun entry => oldEnough entry.2).foldl
    (fun counted entry =>
      ((group.custodians score sel entry.1).filter fun custodian => custodian ∈ judged).foldl
        (fun counted custodian => counted.insert custodian
          (((counted[custodian]?).getD ⟨0, 0⟩).expect
            (custodian ∈ holders entry.1.item))) counted)
    (judged.foldl (fun counted member => counted.insert member ⟨0, 0⟩) ∅)

/-! ## Following the store -/

/-- The view as it follows the store, with the last version seen of each item, which is for the
record only. -/
structure Following where
  view : CustodyView
  last : ItemId → Option StoredItem

/-- After the whole pass over what the store has. -/
def Following.start (view : CustodyView) (items : List StoredItem) : Following where
  view := view
  last := items.foldl (fun last stored => Function.update last stored.item.id (some stored))
    fun _ => none

/-- One item added or changed, at its time. -/
def follow (following : Following) (change : StoredItem × ℕ) : Following where
  -- an update that underflows is not one that happens: see `updates_agree_with_pass`
  view := ((following.view.update score change.1.custodyItem change.2).map Prod.snd).getD
    following.view
  last := Function.update following.last change.1.item.id (some change.1)

/-- Between two versions of an item its custodians change, or its files do. -/
def Changes (group : CustodyGroup) (old new : StoredItem) : Prop :=
  (group.custodians score sel old.custodyItem).toFinset ≠
      (group.custodians score sel new.custodyItem).toFinset ∨
    old.files ≠ new.files

/-- An update that changes an item's custodians or files dates the item. -/
def Dated (following : Following) (change : StoredItem × ℕ) : Prop :=
  ∀ old, following.last change.1.item.id = some old →
    Changes score sel following.view.group old change.1 →
      (follow score following change).view.assignedSince change.1.item.id = some change.2

/-- An update that changes an item's custodians or files changes its size or what it asks of
the group, or comes at the very time the item is dated already. -/
def Tells (following : Following) (change : StoredItem × ℕ) : Prop :=
  ∀ old, following.last change.1.item.id = some old →
    Changes score sel following.view.group old change.1 →
      old.custodyItem.sizeBytes ≠ change.1.custodyItem.sizeBytes ∨
        following.view.group.demandBytes old.custodyItem ≠
          following.view.group.demandBytes change.1.custodyItem ∨
        following.view.assignedSince change.1.item.id = some change.2

/-! ## What the view has of the last versions -/

/-- The view has the size and the demand of the last version of each item. -/
structure Following.Sound (group : CustodyGroup) (following : Following) : Prop where
  tallied : following.view.Tallied
  sameGroup : following.view.group = group
  figures : ∀ item : ItemId,
    (following.view.items[item]?).map (fun part => (part.sizeBytes, part.demandBytes)) =
      (following.last item).map fun stored =>
        (stored.custodyItem.sizeBytes, group.demandBytes stored.custodyItem)

section Steps

variable {score sel} {group : CustodyGroup} {following : Following} {change : StoredItem × ℕ}
  {item : ItemId}

/-- One version put in. -/
theorem Following.Sound.insert (h : following.Sound group) (stored : StoredItem) (mine : Bool)
    (since : ℕ) :
    ∃ next, following.view.insert stored.custodyItem mine since = some next ∧
      Following.Sound group
        ⟨next, Function.update following.last stored.item.id (some stored)⟩ ∧
      next.assignedSince stored.item.id = some since ∧
      ∀ other, other ≠ stored.item.id →
        next.assignedSince other = following.view.assignedSince other := by
  obtain ⟨next, hnext, htallied, hgroup, -, hitems⟩ :=
    h.tallied.insert stored.custodyItem mine since
  have hget : ∀ id : ItemId, next.items[id]? = if id = stored.item.id then
      some ⟨stored.custodyItem.sizeBytes, group.demandBytes stored.custodyItem, mine, since⟩
      else following.view.items[id]? := by
    intro id
    rw [hitems, Std.ExtTreeMap.getElem?_insert, h.sameGroup]
    by_cases heq : id = stored.item.id
    · obtain rfl := heq
      rw [if_pos (by rw [Std.LawfulEqCmp.compare_eq_iff_eq]; rfl), if_pos rfl]
    · rw [if_neg (by rw [Std.LawfulEqCmp.compare_eq_iff_eq]; exact Ne.symm heq), if_neg heq]
  refine ⟨next, hnext, ⟨htallied, hgroup.trans h.sameGroup, fun id => ?_⟩, ?_, fun other hne => ?_⟩
  · rw [hget]
    dsimp only
    by_cases heq : id = stored.item.id
    · obtain rfl := heq
      rw [if_pos rfl, Function.update_self]
      rfl
    · rw [if_neg heq, Function.update_of_ne heq]
      exact h.figures id
  · rw [CustodyView.assignedSince, hget, if_pos rfl]
    rfl
  · rw [CustodyView.assignedSince, CustodyView.assignedSince, hget, if_neg hne]

/-- The whole pass, over whatever items. -/
theorem sound_compute (score : ItemId → MemberId → ℕ → S) (workers : Workers) (group : CustodyGroup)
    (me : MemberId) (items : List StoredItem) (now : ℕ) :
    ∃ view, CustodyView.compute score workers group me (items.map StoredItem.custodyItem) now =
      some view ∧ (Following.start view items).Sound group := by
  have hfold : ∀ (list : List StoredItem) (mine : List ItemId) (following : Following),
      following.Sound group → ∃ view,
        (list.map StoredItem.custodyItem).foldlM
          (fun view item => view.insert item (decide (item.item ∈ mine)) now) following.view =
            some view ∧
        Following.Sound group ⟨view, list.foldl
          (fun last stored => Function.update last stored.item.id (some stored)) following.last⟩ := by
    intro list mine
    induction list with
    | nil =>
      intro following h
      exact ⟨following.view, rfl, h⟩
    | cons stored rest ih =>
      intro following h
      obtain ⟨next, hnext, hsound, -, -⟩ :=
        h.insert stored (decide (stored.custodyItem.item ∈ mine)) now
      obtain ⟨view, hview, hend⟩ := ih _ hsound
      refine ⟨view, ?_, hend⟩
      rw [List.map_cons, List.foldlM_cons, hnext, Option.bind_eq_bind, Option.bind_some]
      exact hview
  exact hfold items _ ⟨⟨group, me, ∅, 0, 0, 0⟩, fun _ => none⟩
    ⟨⟨by simp, by simp, by simp⟩, rfl, fun item => by simp⟩

/-- One item followed: it is dated as an update dates it, and no other item is. -/
theorem Following.Sound.follow (h : following.Sound group)
    (score : ItemId → MemberId → ℕ → S) (change : StoredItem × ℕ) :
    (Distlib.follow score following change).Sound group ∧
      (Distlib.follow score following change).view.assignedSince change.1.item.id =
        some (following.view.sinceAt change.1.custodyItem change.2) ∧
      ∀ other, other ≠ change.1.item.id →
        (Distlib.follow score following change).view.assignedSince other =
          following.view.assignedSince other := by
  obtain ⟨next, hnext, hsound, hself, hothers⟩ := h.insert change.1
    (following.view.group.isCustodian score change.1.custodyItem following.view.me)
    (following.view.sinceAt change.1.custodyItem change.2)
  have hview : (Distlib.follow score following change).view = next := by
    rw [Distlib.follow, CustodyView.update, hnext]
    rfl
  have hfollow : Distlib.follow score following change =
      ⟨next, Function.update following.last change.1.item.id (some change.1)⟩ := by
    rw [← hview]
    rfl
  rw [hfollow]
  exact ⟨hsound, hself, hothers⟩

/-- An item the view has keeps its date while size and demand stay. -/
theorem CustodyView.sinceAt_of_some {view : CustodyView} {item : CustodyItem} {old : Part}
    (h : view.items[item.item]? = some old) (now : ℕ) :
    view.sinceAt item now =
      if old.sizeBytes = item.sizeBytes ∧ old.demandBytes = view.group.demandBytes item
      then old.since else now := by
  rw [CustodyView.sinceAt, h]

/-- One it does not have is dated when it comes. -/
theorem CustodyView.sinceAt_of_none {view : CustodyView} {item : CustodyItem}
    (h : view.items[item.item]? = none) (now : ℕ) : view.sinceAt item now = now := by
  rw [CustodyView.sinceAt, h]

/-- What a followed item is dated by: its date stays while size and demand do. -/
theorem Following.Sound.sinceAt_eq (h : following.Sound group) {old : StoredItem}
    (hold : following.last change.1.item.id = some old) :
    ∃ since, following.view.assignedSince change.1.item.id = some since ∧
      following.view.sinceAt change.1.custodyItem change.2 =
        if old.custodyItem.sizeBytes = change.1.custodyItem.sizeBytes ∧
          group.demandBytes old.custodyItem = group.demandBytes change.1.custodyItem
        then since else change.2 := by
  have hfigures := h.figures change.1.item.id
  rw [hold, Option.map_some, Option.map_eq_some_iff] at hfigures
  obtain ⟨part, hpart, hsame⟩ := hfigures
  obtain ⟨hsize, hdemand⟩ := Prod.mk.inj hsame
  refine ⟨part.since, by rw [CustodyView.assignedSince, hpart]; rfl, ?_⟩
  have hpart : following.view.items[change.1.custodyItem.item]? = some part := hpart
  rw [CustodyView.sinceAt_of_some hpart, hsize, hdemand, h.sameGroup]

/-- **One update** is dated as it should be exactly if it tells. -/
theorem Following.Sound.dated_iff_tells (h : following.Sound group) (change : StoredItem × ℕ) :
    Dated score sel following change ↔ Tells score sel following change := by
  refine forall_congr' fun old => forall_congr' fun hold => forall_congr' fun _ => ?_
  obtain ⟨since, hsince, hdate⟩ := h.sinceAt_eq hold
  obtain ⟨-, hself, -⟩ := h.follow score change
  rw [hself, hdate, hsince, h.sameGroup]
  split
  · rename_i hsame
    simp [hsame]
  · rename_i hother
    refine iff_of_true rfl ?_
    rcases not_and_or.mp hother with hsize | hdemand
    · exact Or.inl hsize
    · exact Or.inr (Or.inl hdemand)

/-! ## Dates along a run -/

/-- A date only moves on, when the clock does. -/
theorem assignedSince_mono (changes : List (StoredItem × ℕ)) {time : ℕ}
    (hclock : ∀ change ∈ changes, time ≤ change.2) :
    ∀ {following : Following}, following.Sound group →
      (∃ since, following.view.assignedSince item = some since ∧ time ≤ since) →
      ∃ since, (exec (follow score) following changes).view.assignedSince item = some since ∧
        time ≤ since := by
  induction changes with
  | nil =>
    intro following _ hdate
    exact hdate
  | cons change rest ih =>
    rintro following h ⟨since, hsince, hle⟩
    obtain ⟨hnext, hself, hothers⟩ := h.follow score change
    refine ih (fun other hmem => hclock other (List.mem_cons_of_mem _ hmem)) hnext ?_
    by_cases heq : item = change.1.item.id
    · obtain rfl := heq
      refine ⟨_, hself, ?_⟩
      rw [CustodyView.assignedSince, Option.map_eq_some_iff] at hsince
      obtain ⟨part, hpart, rfl⟩ := hsince
      have hpart : following.view.items[change.1.custodyItem.item]? = some part := hpart
      rw [CustodyView.sinceAt_of_some hpart]
      split
      · exact hle
      · exact hclock change List.mem_cons_self
    · exact ⟨since, (hothers item heq).trans hsince, hle⟩

/-- An item that comes, or changes, is dated from then on no earlier. -/
theorem assignedSince_of_changed {before after : List (StoredItem × ℕ)}
    {start : Following} (h : start.Sound group)
    (hdated : Along (follow score) (Dated score sel) start (before ++ change :: after))
    (hclock : ∀ later ∈ after, change.2 ≤ later.2)
    (hchanged : ∀ old, (exec (follow score) start before).last change.1.item.id = some old →
      Changes score sel group old change.1) :
    ∃ since, (exec (follow score) start (before ++ change :: after)).view.assignedSince
      change.1.item.id = some since ∧ change.2 ≤ since := by
  have hbefore : (exec (follow score) start before).Sound group :=
    exec_invariant (fun _ next hsound => (hsound.follow score next).1) before h
  rw [along_append] at hdated
  obtain ⟨-, hdate, -⟩ := hdated
  obtain ⟨hnext, hself, -⟩ := hbefore.follow score change
  rw [exec_append, exec_cons]
  refine assignedSince_mono after hclock hnext ?_
  rcases hlast : (exec (follow score) start before).last change.1.item.id with _ | old
  · -- an item that is new is dated when it comes
    refine ⟨_, hself, ?_⟩
    have hnone := hbefore.figures change.1.item.id
    rw [hlast, Option.map_none, Option.map_eq_none_iff] at hnone
    exact (CustodyView.sinceAt_of_none hnone change.2).ge
  · refine ⟨change.2, hdate old hlast ?_, le_refl _⟩
    rw [hbefore.sameGroup]
    exact hchanged old hlast

/-- What is not old enough does not count. -/
theorem count_eq_of_young {held : List (CustodyItem × ℕ)} {oldEnough : ℕ → Bool}
    (h : ∀ entry ∈ held, entry.1.item = item → oldEnough entry.2 = false)
    (judged : List MemberId) (holders : ItemId → List MemberId) :
    count score sel group held judged holders oldEnough =
      count score sel group (held.filter fun entry => entry.1.item ≠ item) judged holders
        oldEnough := by
  have hsame : (held.filter fun entry => oldEnough entry.2) =
      (held.filter fun entry => entry.1.item ≠ item).filter fun entry => oldEnough entry.2 := by
    rw [List.filter_filter]
    refine List.filter_congr fun entry hmem => ?_
    by_cases hitem : entry.1.item = item
    · simp [hitem, h entry hmem hitem]
    · simp [hitem]
  rw [count, count, ← hsame]

end Steps

/-- **Custodians are dated from when they were worked out**, in a run of updates after a whole
pass, exactly if each update that changes an item's custodians or its files changes its size
or its demand too, or comes at the very time of its date. With the clock never going back,
coverage then counts no item, against anyone, that came or changed less than the settling
time ago. -/
theorem dated_iff (workers : Workers) (group : CustodyGroup) (me : MemberId)
    (items : List StoredItem) (now : ℕ) (changes : List (StoredItem × ℕ)) :
    ∃ view, CustodyView.compute score workers group me (items.map StoredItem.custodyItem) now =
        some view ∧
      (Along (follow score) (Dated score sel) (.start view items) changes ↔
        Along (follow score) (Tells score sel) (.start view items) changes) ∧
      (Along (follow score) (Tells score sel) (.start view items) changes →
        (changes.map Prod.snd).Pairwise (· ≤ ·) →
        ∀ (before after : List (StoredItem × ℕ)) (change : StoredItem × ℕ),
          changes = before ++ change :: after →
          (∀ old, (exec (follow score) (.start view items) before).last change.1.item.id = some old →
            Changes score sel group old change.1) →
          ∀ (later maxSettle : ℕ), later - change.2 < maxSettle →
          ∀ (held : List (CustodyItem × ℕ)) (judged : List MemberId) (holders : ItemId → List MemberId),
            (∀ entry ∈ held, (exec (follow score) (.start view items) changes).view.assignedSince
              entry.1.item = some entry.2) →
            count score sel group held judged holders (fun since => maxSettle ≤ later - since) =
              count score sel group (held.filter fun entry => entry.1.item ≠ change.1.item.id)
                judged holders fun since => maxSettle ≤ later - since) := by
  obtain ⟨view, hview, hsound⟩ := sound_compute score workers group me items now
  have hiff : Along (follow score) (Dated score sel) (.start view items) changes ↔
      Along (follow score) (Tells score sel) (.start view items) changes :=
    along_iff (I := Following.Sound group) (P := fun _ => True) (fun _ next h => (h.follow score next).1)
      (fun _ next h _ => h.dated_iff_tells next) (fun _ _ _ _ => trivial) changes hsound trivial
  refine ⟨view, hview, hiff, ?_⟩
  rintro htells hclock before after change rfl hchanged later maxSettle hyoung held judged holders hheld
  have hafter : ∀ other ∈ after, change.2 ≤ other.2 := by
    intro other hmem
    rw [List.map_append, List.map_cons, List.pairwise_append] at hclock
    exact (List.pairwise_cons.mp hclock.2.1).1 _ (List.mem_map_of_mem hmem)
  obtain ⟨since, hsince, hle⟩ := assignedSince_of_changed hsound (hiff.mpr htells) hafter hchanged
  refine count_eq_of_young (fun entry hmem hitem => ?_) judged holders
  have hentry := hheld entry hmem
  rw [hitem, hsince] at hentry
  obtain rfl := Option.some.inj hentry
  simp only [decide_eq_false_iff_not, not_le]
  omega

end Score

/-! An item that another member adds again. -/

namespace AddedAgain

/-- A file of five bytes. -/
def record : FileRecord := ⟨.content, "", 5, "a", none, none, none, none⟩

/-- One item with that file, added by `members`. -/
def addedBy (members : Finset MemberId) : StoredItem where
  item := { Item.new ⟨1⟩ with files := (∅ : OrdMap ContentHash FileRecord).insert ⟨7⟩ record }
  ratings := ∅
  reviews := ∅
  fileAuthors := (∅ : OrdMap ContentHash (Finset MemberId)).insert ⟨7⟩ members
  lastModified := 0

/-- Three members, each with as much to give. -/
def group : CustodyGroup := .new 3 ⟨1000, 1, 0⟩ [(⟨1⟩, 500), (⟨2⟩, 500), (⟨3⟩, 500)]

/-- In a group of three with three copies of everything, whatever the scores, one who adds an
item again is custodian of it no longer. -/
def score (_ : ItemId) (_ : MemberId) (weight : ℕ) : ℕ := weight

/-- The third member adds again, at time five, what the second had added. The custodians were
the first and the third, and are the first; the item stays dated at the whole pass. -/
theorem addedAgain_keeps_date :
    Changes score Selection.sorting group (addedBy {⟨2⟩}) (addedBy {⟨2⟩, ⟨3⟩}) ∧
      (CustodyView.compute score .one group ⟨1⟩ [(addedBy {⟨2⟩}).custodyItem] 0).map
          (fun view => (follow score (.start view [addedBy {⟨2⟩}])
            (addedBy {⟨2⟩, ⟨3⟩}, 5)).view.assignedSince ⟨1⟩) = some (some 0) := by
  refine ⟨Or.inl ?_, ?_⟩ <;> decide +kernel

end AddedAgain

end Distlib
