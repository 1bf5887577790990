import Distlib.Core.Custody
import Distlib.Lib.OrdMap

/-!
# This node's custody, kept as items come and change

What a node is custodian of, and what the whole catalogue asks of the group, is worked
out once for all items and then kept up item by item: an item that comes or changes has
its old part taken out of the totals and its new one put in. A status is then read
without a pass.

The whole pass asks `custodyOf`, an update asks `isCustodian`. The subtractions are
checked here: a run in which one would underflow comes to `none`.

The main result is `updates_agree_with_pass`: after any updates the view says what a
whole pass over the latest version of each item says. `Tallied` carries it: the totals
are those of the parts, so equal parts are equal totals, and a part that is taken out
is one of those in the totals.
-/

namespace Distlib

open OrdMap

/-- One item's part in the totals. -/
structure Part where
  sizeBytes : ℕ
  demandBytes : ℕ
  mine : Bool
  /-- when its custodians were last worked out -/
  since : ℕ
  deriving DecidableEq

/-- The settled group, every item's part in this node's custody and in the group's load,
and the totals. -/
structure CustodyView where
  group : CustodyGroup
  me : MemberId
  items : OrdMap ItemId Part
  myItems : ℕ
  myBytes : ℕ
  demandBytes : ℕ

/-- A subtraction that does not go below nothing. -/
def checkedSub (a b : ℕ) : Option ℕ := if b ≤ a then some (a - b) else none

namespace CustodyView

def addToTotals (view : CustodyView) (part : Part) : CustodyView :=
  { view with
    demandBytes := view.demandBytes + part.demandBytes
    myItems := if part.mine then view.myItems + 1 else view.myItems
    myBytes := if part.mine then view.myBytes + part.sizeBytes else view.myBytes }

def removeFromTotals (view : CustodyView) (part : Part) : Option CustodyView := do
  let demandBytes ← checkedSub view.demandBytes part.demandBytes
  if part.mine then
    let myItems ← checkedSub view.myItems 1
    let myBytes ← checkedSub view.myBytes part.sizeBytes
    return { view with demandBytes, myItems, myBytes }
  else return { view with demandBytes }

/-- Puts in an item's part, in place of the one it had. -/
def insert (view : CustodyView) (item : CustodyItem) (mine : Bool) (since : ℕ) :
    Option CustodyView := do
  let part : Part := ⟨item.sizeBytes, view.group.demandBytes item, mine, since⟩
  let old := view.items[item.item]?
  let view := { view with items := view.items.insert item.item part }
  let view ← match old with
    | none => some view
    | some old => view.removeFromTotals old
  return view.addToTotals part

section Score

variable {S : Type} [LinearOrder S] (score : ItemId → MemberId → ℕ → S)

/-- Custody of every one of `items` under `group`: the whole pass. -/
def compute (workers : Workers) (group : CustodyGroup) (me : MemberId) (items : List CustodyItem)
    (now : ℕ) : Option CustodyView :=
  let mine := group.custodyOf score workers me items
  items.foldlM (fun view item => view.insert item (decide (item.item ∈ mine)) now)
    ⟨group, me, ∅, 0, 0, 0⟩

/-- When the custodians of an item that is updated now were last worked out: a rating or
a review changes nothing about who keeps it. -/
def sinceAt (view : CustodyView) (item : CustodyItem) (now : ℕ) : ℕ :=
  match view.items[item.item]? with
  | some old =>
    if old.sizeBytes = item.sizeBytes ∧ old.demandBytes = view.group.demandBytes item
    then old.since else now
  | none => now

/-- One item added or changed since the pass. Answers whether this node keeps it. -/
def update (view : CustodyView) (item : CustodyItem) (now : ℕ) : Option (Bool × CustodyView) :=
  let isMine := view.group.isCustodian score item view.me
  (view.insert item isMine (view.sinceAt item now)).map fun view => (isMine, view)

/-- Updates, one after another, each at its time. -/
def updateAll (view : CustodyView) (updates : List (CustodyItem × ℕ)) : Option CustodyView :=
  updates.foldlM (fun view item => (view.update score item.1 item.2).map Prod.snd) view

end Score

/-- Whether this node keeps `item`. -/
def isMine (view : CustodyView) (item : ItemId) : Bool :=
  (view.items[item]?).any Part.mine

end CustodyView

/-! ## The totals are those of the parts -/

/-- What a part adds to the number of items this node keeps. -/
def Part.myItems (part : Part) : ℕ := if part.mine then 1 else 0

/-- What a part adds to the bytes this node keeps. -/
def Part.myBytes (part : Part) : ℕ := if part.mine then part.sizeBytes else 0

namespace CustodyView

variable {view : CustodyView} {part : Part}

theorem addToTotals_eq (view : CustodyView) (part : Part) :
    view.addToTotals part =
      { view with
        demandBytes := view.demandBytes + part.demandBytes
        myItems := view.myItems + part.myItems
        myBytes := view.myBytes + part.myBytes } := by
  rw [addToTotals, Part.myItems, Part.myBytes]
  cases part.mine <;> rfl

/-- A part that is in the totals is taken out of them. -/
theorem removeFromTotals_eq (hdemand : part.demandBytes ≤ view.demandBytes)
    (hitems : part.myItems ≤ view.myItems) (hbytes : part.myBytes ≤ view.myBytes) :
    view.removeFromTotals part = some
      { view with
        demandBytes := view.demandBytes - part.demandBytes
        myItems := view.myItems - part.myItems
        myBytes := view.myBytes - part.myBytes } := by
  rw [Part.myItems] at hitems ⊢
  rw [Part.myBytes] at hbytes ⊢
  rw [removeFromTotals, checkedSub, if_pos hdemand, Option.bind_eq_bind, Option.bind_some]
  split
  · rename_i hmine
    rw [if_pos hmine] at hitems hbytes
    rw [checkedSub, if_pos hitems, checkedSub, if_pos hbytes]
    rfl
  · rfl

/-- The totals are what the parts come to. -/
structure Tallied (view : CustodyView) : Prop where
  demandBytes : view.demandBytes = total view.items Part.demandBytes
  myItems : view.myItems = total view.items Part.myItems
  myBytes : view.myBytes = total view.items Part.myBytes

/-- **One item comes or changes.** Nothing underflows, the totals stay those of the
parts, and no other part changes. -/
theorem Tallied.insert (h : view.Tallied) (item : CustodyItem) (mine : Bool) (since : ℕ) :
    ∃ next, view.insert item mine since = some next ∧ next.Tallied ∧ next.group = view.group ∧
      next.me = view.me ∧ next.items = view.items.insert item.item
        ⟨item.sizeBytes, view.group.demandBytes item, mine, since⟩ := by
  let part : Part := ⟨item.sizeBytes, view.group.demandBytes item, mine, since⟩
  have hdemand := total_insert view.items Part.demandBytes item.item part
  have hitems := total_insert view.items Part.myItems item.item part
  have hbytes := total_insert view.items Part.myBytes item.item part
  obtain ⟨hd, hi, hb⟩ := h
  rcases hold : view.items[item.item]? with _ | old
  · rw [hold, Option.elim_none, Nat.add_zero] at hdemand hitems hbytes
    refine ⟨{ view with
        items := view.items.insert item.item part
        demandBytes := view.demandBytes + part.demandBytes
        myItems := view.myItems + part.myItems
        myBytes := view.myBytes + part.myBytes }, ?_, ⟨?_, ?_, ?_⟩, rfl, rfl, rfl⟩
    · simp only [CustodyView.insert, hold, Option.bind_eq_bind, Option.bind_some, addToTotals_eq]
      rfl
    · rw [hdemand, hd]
    · rw [hitems, hi]
    · rw [hbytes, hb]
  · -- the part taken out is one of those in the totals
    have hold' := total_eq_add view.items Part.demandBytes item.item
    have holdItems := total_eq_add view.items Part.myItems item.item
    have holdBytes := total_eq_add view.items Part.myBytes item.item
    rw [hold, Option.elim_some] at hdemand hitems hbytes hold' holdItems holdBytes
    refine ⟨{ view with
        items := view.items.insert item.item part
        demandBytes := view.demandBytes - old.demandBytes + part.demandBytes
        myItems := view.myItems - old.myItems + part.myItems
        myBytes := view.myBytes - old.myBytes + part.myBytes }, ?_, ⟨?_, ?_, ?_⟩, rfl, rfl, rfl⟩
    · simp only [CustodyView.insert, hold]
      rw [removeFromTotals_eq (by dsimp only; omega) (by dsimp only; omega) (by dsimp only; omega),
        Option.bind_eq_bind, Option.bind_some, addToTotals_eq]
      rfl
    · dsimp only
      omega
    · dsimp only
      omega
    · dsimp only
      omega

end CustodyView

/-! ## The latest version of each item -/

/-- The last of `versions` that is of `item`. -/
def lastOf : List CustodyItem → ItemId → Option CustodyItem
  | [], _ => none
  | version :: rest, item => (lastOf rest item).or (if version.item = item then some version else none)

/-- `latest` has the last of the versions of each item, and no item twice. -/
def IsLatest (versions latest : List CustodyItem) : Prop :=
  (latest.map CustodyItem.item).Nodup ∧
    ∀ version, version ∈ latest ↔ lastOf versions version.item = some version

section Versions

variable {versions latest : List CustodyItem} {version : CustodyItem} {item : ItemId}

theorem item_of_lastOf (h : lastOf versions item = some version) :
    version ∈ versions ∧ version.item = item := by
  induction versions with
  | nil => cases h
  | cons first rest ih =>
    rw [lastOf, Option.or_eq_some_iff] at h
    rcases h with hlater | ⟨-, hfirst⟩
    · obtain ⟨hmem, heq⟩ := ih hlater
      exact ⟨List.mem_cons_of_mem _ hmem, heq⟩
    · obtain ⟨heq, hsome⟩ := Option.ite_none_right_eq_some.mp hfirst
      obtain rfl := Option.some.inj hsome
      exact ⟨List.mem_cons_self, heq⟩

theorem lastOf_append (first second : List CustodyItem) (item : ItemId) :
    lastOf (first ++ second) item = (lastOf second item).or (lastOf first item) := by
  induction first with
  | nil => simp [lastOf]
  | cons version rest ih => rw [List.cons_append, lastOf, lastOf, ih, Option.or_assoc]

/-- In a list that names no item twice, a version of it is the last one. -/
theorem lastOf_of_mem (hdistinct : (versions.map CustodyItem.item).Nodup)
    (hmem : version ∈ versions) : lastOf versions version.item = some version := by
  induction versions with
  | nil => cases hmem
  | cons first rest ih =>
    rw [List.map_cons, List.nodup_cons] at hdistinct
    obtain ⟨hnew, hrest⟩ := hdistinct
    rw [lastOf]
    rcases List.mem_cons.mp hmem with rfl | hlater
    · have hnone : lastOf rest version.item = none := by
        cases hlast : lastOf rest version.item with
        | none => rfl
        | some other =>
          obtain ⟨hother, heq⟩ := item_of_lastOf hlast
          exact absurd (List.mem_map.mpr ⟨other, hother, heq⟩) hnew
      rw [hnone, Option.none_or, if_pos rfl]
    · rw [ih hrest hlater, Option.some_or]

theorem IsLatest.lastOf (h : IsLatest versions latest) (item : ItemId) :
    lastOf latest item = lastOf versions item := by
  obtain ⟨hdistinct, hmem⟩ := h
  have hiff : ∀ version, Distlib.lastOf latest item = some version ↔
      Distlib.lastOf versions item = some version := by
    intro version
    constructor
    · intro hlast
      obtain ⟨hin, rfl⟩ := item_of_lastOf hlast
      exact (hmem version).mp hin
    · intro hlast
      obtain ⟨-, rfl⟩ := item_of_lastOf hlast
      exact lastOf_of_mem hdistinct ((hmem version).mpr hlast)
  exact Option.ext hiff

end Versions

/-! ## Updates and the whole pass -/

/-- A part, but for its date. -/
def Part.figures (part : Part) : ℕ × ℕ × Bool := (part.sizeBytes, part.demandBytes, part.mine)

namespace CustodyView

section Score

variable {S : Type} [LinearOrder S] (score : ItemId → MemberId → ℕ → S)

/-- What an item's part says, but for its date. -/
def figuresOf (group : CustodyGroup) (me : MemberId) (item : CustodyItem) : ℕ × ℕ × Bool :=
  (item.sizeBytes, group.demandBytes item, group.isCustodian score item me)

/-- The view has what it says of the last of `versions` of each item. -/
structure Follows (group : CustodyGroup) (me : MemberId) (versions : List CustodyItem)
    (view : CustodyView) : Prop where
  tallied : view.Tallied
  sameGroup : view.group = group
  sameMe : view.me = me
  items : ∀ item : ItemId, (view.items[item]?).map Part.figures =
    (lastOf versions item).map (figuresOf score group me)

variable {score} {group : CustodyGroup} {me : MemberId} {versions : List CustodyItem}
  {view : CustodyView}

/-- One more version of an item. -/
theorem Follows.insert (h : Follows score group me versions view) (item : CustodyItem)
    (since : ℕ) :
    ∃ next, view.insert item (group.isCustodian score item me) since = some next ∧
      Follows score group me (versions ++ [item]) next := by
  obtain ⟨next, hnext, htallied, hgroup, hme, hitems⟩ :=
    h.tallied.insert item (group.isCustodian score item me) since
  refine ⟨next, hnext, htallied, hgroup.trans h.sameGroup, hme.trans h.sameMe, fun id => ?_⟩
  rw [hitems, lastOf_append, lastOf, lastOf, Option.none_or, h.sameGroup,
    Std.ExtTreeMap.getElem?_insert]
  by_cases heq : item.item = id
  · rw [if_pos (by rw [Std.LawfulEqCmp.compare_eq_iff_eq]; exact heq), if_pos heq, Option.some_or]
    rfl
  · rw [if_neg (by rw [Std.LawfulEqCmp.compare_eq_iff_eq]; exact heq), if_neg heq, Option.none_or]
    exact h.items id

/-- Versions put in one after another. -/
theorem Follows.foldlM {α : Type} (version : α → CustodyItem)
    (put : CustodyView → α → Option CustodyView) (list : List α) :
    ∀ {versions : List CustodyItem} {view : CustodyView}, Follows score group me versions view →
      (∀ entry ∈ list, ∀ {versions view}, Follows score group me versions view →
        ∃ since, put view entry =
          view.insert (version entry) (group.isCustodian score (version entry) me) since) →
      ∃ last, list.foldlM put view = some last ∧
        Follows score group me (versions ++ list.map version) last := by
  induction list with
  | nil =>
    intro versions view h _
    exact ⟨view, rfl, by rwa [List.map_nil, List.append_nil]⟩
  | cons entry rest ih =>
    intro versions view h hput
    obtain ⟨since, heq⟩ := hput entry List.mem_cons_self h
    obtain ⟨next, hnext, hfollows⟩ := h.insert (version entry) since
    obtain ⟨last, hlast, hend⟩ := ih hfollows fun other hother =>
      hput other (List.mem_cons_of_mem _ hother)
    refine ⟨last, ?_, ?_⟩
    · rw [List.foldlM_cons, heq, hnext, Option.bind_eq_bind, Option.bind_some, hlast]
    · rwa [List.append_assoc, List.singleton_append, ← List.map_cons] at hend

/-- **The whole pass** over items none of which comes twice. -/
theorem follows_compute (score : ItemId → MemberId → ℕ → S) (workers : Workers) (group : CustodyGroup) (me : MemberId)
    {items : List CustodyItem} (hdistinct : (items.map CustodyItem.item).Nodup) (now : ℕ) :
    ∃ view, compute score workers group me items now = some view ∧
      Follows score group me items view := by
  have hempty : Follows score group me [] ⟨group, me, ∅, 0, 0, 0⟩ :=
    ⟨⟨by simp, by simp, by simp⟩, rfl, rfl, fun item => by simp [lastOf]⟩
  obtain ⟨view, hview, hfollows⟩ := hempty.foldlM id
    (fun view item => view.insert item
      (decide (item.item ∈ group.custodyOf score workers me items)) now) items
    fun item hitem {versions view} _ => ⟨now, by
      -- no other item of this id is there to put it among this node's
      have hmine : item.item ∈ group.custodyOf score workers me items ↔
          group.isCustodian score item me = true := by
        rw [CustodyGroup.custodyOf_eq, List.mem_map]
        constructor
        · rintro ⟨other, hother, heq⟩
          obtain ⟨hin, hcustodian⟩ := List.mem_filter.mp hother
          obtain rfl := List.inj_on_of_nodup_map hdistinct hin hitem heq
          exact hcustodian
        · intro hcustodian
          exact ⟨item, List.mem_filter.mpr ⟨hitem, hcustodian⟩, rfl⟩
      simp only [id, hmine, Bool.decide_eq_true]⟩
  rw [List.map_id, List.nil_append] at hfollows
  exact ⟨view, hview, hfollows⟩

/-- **Any updates.** -/
theorem Follows.updateAll (h : Follows score group me versions view)
    (updates : List (CustodyItem × ℕ)) :
    ∃ last, view.updateAll score updates = some last ∧
      Follows score group me (versions ++ updates.map Prod.fst) last := by
  refine h.foldlM Prod.fst _ updates fun entry _ {versions view} hview => ⟨view.sinceAt entry.1 entry.2, ?_⟩
  rw [update, hview.sameGroup, hview.sameMe, Option.map_map]
  exact Option.map_id'

theorem isMine_eq (view : CustodyView) (item : ItemId) :
    view.isMine item = ((view.items[item]?).map fun part => part.figures.2.2).any id := by
  rw [isMine, Option.any_map]
  rfl

/-- Two views of the same versions say the same. -/
theorem Follows.agree {other : CustodyView} {versions' : List CustodyItem}
    (h : Follows score group me versions view) (h' : Follows score group me versions' other)
    (hsame : ∀ item, lastOf versions item = lastOf versions' item) :
    view.myItems = other.myItems ∧ view.myBytes = other.myBytes ∧
      view.demandBytes = other.demandBytes ∧ ∀ item, view.isMine item = other.isMine item := by
  have hfigures : ∀ item : ItemId, (view.items[item]?).map Part.figures =
      (other.items[item]?).map Part.figures := fun item => by
    rw [h.items, h'.items, hsame]
  have hof : ∀ {β : Type} (f : ℕ × ℕ × Bool → β) (item : ItemId),
      (view.items[item]?).map (fun part => f part.figures) =
        (other.items[item]?).map fun part => f part.figures := fun f item => by
    rw [← Function.comp_def, ← Option.map_map, hfigures, Option.map_map]
  refine ⟨?_, ?_, ?_, fun item => ?_⟩
  · rw [h.tallied.myItems, h'.tallied.myItems]
    exact total_congr (hof fun figures => if figures.2.2 then 1 else 0)
  · rw [h.tallied.myBytes, h'.tallied.myBytes]
    exact total_congr (hof fun figures => if figures.2.2 then figures.1 else 0)
  · rw [h.tallied.demandBytes, h'.tallied.demandBytes]
    exact total_congr (hof fun figures => figures.2.1)
  · have hmine := hof (fun figures => figures.2.2) item
    rw [isMine_eq, isMine_eq, hmine]

/-- **Item by item is the whole pass.** In any group, for any score and any way of
sharing the work: after a pass over distinct items and any updates, no subtraction from
the totals has underflowed, and the view says what a pass over the latest version of each
item says: the totals, and which items this node keeps. -/
theorem updates_agree_with_pass (score : ItemId → MemberId → ℕ → S) (workers workers' : Workers)
    (group : CustodyGroup) (me : MemberId) (items : List CustodyItem)
    (updates : List (CustodyItem × ℕ)) (latest : List CustodyItem) (now later : ℕ)
    (hdistinct : (items.map CustodyItem.item).Nodup)
    (hlatest : IsLatest (items ++ updates.map Prod.fst) latest) :
    ∃ view pass, ((compute score workers group me items now).bind fun view =>
        view.updateAll score updates) = some view ∧
      compute score workers' group me latest later = some pass ∧
      view.myItems = pass.myItems ∧ view.myBytes = pass.myBytes ∧
      view.demandBytes = pass.demandBytes ∧ ∀ item, view.isMine item = pass.isMine item := by
  obtain ⟨first, hfirst, hfollows⟩ := follows_compute score workers group me hdistinct now
  obtain ⟨view, hview, hend⟩ := hfollows.updateAll updates
  obtain ⟨pass, hpass, hpassed⟩ :=
    follows_compute score workers' group me hlatest.1 later
  refine ⟨view, pass, by rw [hfirst, Option.bind_some, hview], hpass, ?_⟩
  exact hend.agree hpassed fun item => (hlatest.lastOf item).symm

end Score

/-- A book of the second of two members. -/
def bookOf (sizeBytes : ℕ) : CustodyItem := ⟨⟨1⟩, [⟨2⟩], sizeBytes⟩

/-- A book that grows is the grown book. -/
theorem updates_agree_with_pass_grown :
    let group := CustodyGroup.new 3 ⟨1000, 1, 0⟩ [(⟨1⟩, 500), (⟨2⟩, 500)]
    let score := fun (_ : ItemId) (_ : MemberId) (weight : ℕ) => weight
    ∃ view pass, ((compute score .one group ⟨1⟩ [bookOf 100] 0).bind fun view =>
        view.updateAll score [(bookOf 600, 5)]) = some view ∧
      compute score .one group ⟨1⟩ [bookOf 600] 9 = some pass ∧
      view.myItems = pass.myItems ∧ view.myBytes = pass.myBytes ∧
      view.demandBytes = pass.demandBytes ∧ ∀ item, view.isMine item = pass.isMine item :=
  updates_agree_with_pass _ .one .one _ ⟨1⟩ [bookOf 100] [(bookOf 600, 5)] [bookOf 600] 0 9
    (by decide) ⟨by decide, fun version => by
      rw [List.mem_singleton]
      constructor
      · rintro rfl
        rfl
      · intro hlast
        rcases List.mem_pair.mp (item_of_lastOf hlast).1 with rfl | rfl
        · exact absurd hlast (by decide)
        · rfl⟩

end CustodyView

end Distlib
