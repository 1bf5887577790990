import Distlib.Custody.Fetches

/-!
# No custody is let go too early

Letting go of custody is the one thing the pin manager does that can cost an item: if
this node's copy was the last, the cache may lose it. `release_if_safe` is where that
is decided, and it is reached from four places: an item lost, a whole reading that
leaves it out, a fetch that ends after its item was lost, and a release that waited.

Every release is on record with what it was judged by: the last word on the item's
custody, and the sources as they were read at that moment. `Lets` says what a stretch
of the manager's work may do to custody tags: nothing that is not such a release, each
justified (`Release.Safe`) and judged by what the event at hand brought. What waits to
be released has the last word against it (`Judged`); an item wanted again waits no
longer, so it is judged afresh when it is lost again.

The main result is `custody_let_go_safely`.
-/

namespace Distlib

open Ranking GuardedRun

namespace Pins

/-- A release that was justified when it started, and left no blob untagged. -/
structure Release.Safe (me : MemberId) (release : Release) : Prop where
  /-- the last word was that the item is not this node's -/
  notMine : release.word = some false
  /-- the node does not wait for an upgrade -/
  upToDate : release.sources.upgradeRequired = false
  /-- if it holds the item, what everybody else online holds is known -/
  known : release.sources.holds release.item = true → ∀ member ∈ release.sources.online,
    member ≠ me → release.sources.holders.isKnown member = true
  /-- and enough of them hold a real copy -/
  enough : release.sources.holds release.item = true → release.sources.replicas ≤
    (release.sources.online.filter fun member =>
      member ≠ me ∧ member ∈ release.sources.holders.realHolders release.item).card
  /-- at every step each blob there was custody of carries a custody or a cache tag -/
  tagged : ∀ tags ∈ release.passed, ∀ blob, ⟨.custody, release.item, blob⟩ ∈ release.before →
    ⟨.custody, release.item, blob⟩ ∈ tags ∨ ⟨.cache, release.item, blob⟩ ∈ tags

/-- What an event shows of an item, when it may come to judging it. -/
def Event.look (event : Event) (item : ItemId) : Option Look :=
  match event with
  | .recomputed reading => some (reading.looks item)
  | .item changed mine look => if mine = false ∧ item = changed then some look else none
  | .gathered looks => some (looks item)
  | .fetched _ _ _ look => some look
  | .availabilityChanged | .panicked _ => none

namespace World

/-- What a stretch of work does to custody: it takes in no word, and every custody tag
that goes, goes in a release that is justified and judged by what is shown. -/
structure Lets (me : MemberId) (shown : ItemId → Option Look) (world next : World) : Prop where
  word : next.lastWord = world.lastWord
  releases : ∃ started, next.released = world.released ++ started ∧
    (∀ release ∈ started, release.Safe me ∧ release.word = world.lastWord release.item ∧
      ∃ look, shown release.item = some look ∧ release.sources = look.toPinSources) ∧
    ∀ tag ∈ world.tags, tag.reason = .custody → tag ∉ next.tags →
      ∃ release ∈ started, release.item = tag.item

section Lets

variable {me : MemberId} {shown : ItemId → Option Look} {world next last : World} {item : ItemId}

/-- Work that touches no tag lets nothing go. -/
theorem Lets.quiet (hword : next.lastWord = world.lastWord) (htags : next.tags = world.tags)
    (hreleased : next.released = world.released) : Lets me shown world next := by
  refine ⟨hword, [], by rw [hreleased, List.append_nil], by simp, fun tag hmem _ hgone => ?_⟩
  rw [htags] at hgone
  exact absurd hmem hgone

theorem Lets.trans (h : Lets me shown world next) (h' : Lets me shown next last) :
    Lets me shown world last := by
  obtain ⟨hword, started, hrecord, hsafe, hgone⟩ := h
  obtain ⟨hword', started', hrecord', hsafe', hgone'⟩ := h'
  refine ⟨hword'.trans hword, started ++ started', ?_, ?_, ?_⟩
  · rw [hrecord', hrecord, List.append_assoc]
  · intro release hmem
    rcases List.mem_append.mp hmem with hfirst | hsecond
    · exact hsafe release hfirst
    · rw [← hword]
      exact hsafe' release hsecond
  · intro tag htag hcustody hlast
    by_cases hnext : tag ∈ next.tags
    · obtain ⟨release, hmem, hitem⟩ := hgone' tag hnext hcustody hlast
      exact ⟨release, List.mem_append_right _ hmem, hitem⟩
    · obtain ⟨release, hmem, hitem⟩ := hgone tag htag hcustody hnext
      exact ⟨release, List.mem_append_left _ hmem, hitem⟩

end Lets

end World

/-! ## Judging one item -/

/-- Enough copies elsewhere: everybody else online has said what they hold, and enough
of them hold a real copy. -/
theorem enoughCopiesElsewhere_eq_true {sources : PinSources} {me : MemberId} {item : ItemId}
    (h : sources.enoughCopiesElsewhere me item = true) :
    (∀ member ∈ sources.online, member ≠ me → sources.holders.isKnown member = true) ∧
      sources.replicas ≤ (sources.online.filter fun member =>
        member ≠ me ∧ member ∈ sources.holders.realHolders item).card := by
  rw [PinSources.enoughCopiesElsewhere] at h
  split at h
  · cases h
  · rename_i hunknown
    refine ⟨fun member hmem hne => ?_, ?_⟩
    · by_contra hnot
      exact hunknown ⟨member, hmem, hne, by simpa using hnot⟩
    · have hlive := of_decide_eq_true h
      have hset : ((sources.holders.realHolders item).filter fun member =>
          member ≠ me && member ∈ sources.online).toFinset =
          sources.online.filter fun member =>
            member ≠ me ∧ member ∈ sources.holders.realHolders item := by
        ext member
        simp only [List.mem_toFinset, List.mem_filter, Finset.mem_filter, ne_eq, Bool.and_eq_true,
          decide_eq_true_eq, decide_not, Bool.not_eq_true', decide_eq_false_iff_not]
        tauto
      rw [← hset, List.toFinset_card_of_nodup ((sources.holders.nodup_realHolders item).filter _)]
      exact hlive

namespace World

variable {me : MemberId} {sel : Selection InLine} {shown : ItemId → Option Look} {world next : World}
  {item other : ItemId} {maxFetches : ℕ+}

/-- **A judgement lets custody go only when it may.** -/
theorem lets_releaseIfSafe {look : Look} (hword : world.lastWord item = some false)
    (hshown : shown item = some look) :
    Lets me shown world (world.releaseIfSafe me item look) := by
  rw [releaseIfSafe]
  split
  · exact .quiet rfl rfl rfl
  · rename_i hsafe
    simp only [Bool.or_eq_true, Bool.and_eq_true, Bool.not_eq_true', not_or, not_and,
      Bool.not_eq_true, Bool.not_eq_false] at hsafe
    obtain ⟨hupToDate, henough⟩ := hsafe
    have hjudged : Release.Safe me ⟨item, world.lastWord item, look.toPinSources, world.tags,
        (Keeper.release item look.awaits world.tags).passed⟩ :=
      { notMine := hword
        upToDate := hupToDate
        known := fun hholds => (enoughCopiesElsewhere_eq_true (henough hholds)).1
        enough := fun hholds => (enoughCopiesElsewhere_eq_true (henough hholds)).2
        tagged := Keeper.release_keeps_tagged item look.awaits world.tags }
    have hstarted : Lets me shown world { world with
        tags := (Keeper.release item look.awaits world.tags).tags
        released := world.released ++ [⟨item, world.lastWord item, look.toPinSources, world.tags,
          (Keeper.release item look.awaits world.tags).passed⟩] } := by
      refine ⟨rfl, _, rfl, fun release hmem => ?_, fun tag htag hcustody hgone => ?_⟩
      · obtain rfl := List.mem_singleton.mp hmem
        exact ⟨hjudged, rfl, look, hshown, rfl⟩
      · refine ⟨_, List.mem_singleton.mpr rfl, ?_⟩
        by_contra hother
        exact hgone (Keeper.release_frame look.awaits hcustody (Ne.symm hother) htag)
    dsimp only
    split
    · exact hstarted.trans (.quiet rfl rfl rfl)
    · exact hstarted.trans (.quiet rfl rfl rfl)

theorem lets_lose {look : Look} (hword : world.lastWord item = some false)
    (hshown : shown item = some look) : Lets me shown world (world.lose me item look) := by
  rw [lose]
  split
  · exact .quiet rfl rfl rfl
  · exact .quiet rfl rfl rfl
  · exact lets_releaseIfSafe hword hshown

/-- Several items are judged one after another, each by what is shown of it. -/
theorem lets_all {looks : ItemId → Look} {judge : World → ItemId → World}
    (hjudge : ∀ world item, world.lastWord item = some false →
      Lets me (fun item => some (looks item)) world (judge world item)) (items : List ItemId) :
    ∀ {world : World}, (∀ item ∈ items, world.lastWord item = some false) →
      Lets me (fun item => some (looks item)) world (items.foldl judge world) := by
  induction items with
  | nil => intro world _; exact .quiet rfl rfl rfl
  | cons item items ih =>
    intro world hword
    have hfirst := hjudge world item (hword item List.mem_cons_self)
    refine hfirst.trans (ih fun other hmem => ?_)
    rw [hfirst.word]
    exact hword other (List.mem_cons_of_mem _ hmem)

/-! ## What waits to be released -/

/-- What waits to be released has the last word against it. -/
def Judged (world : World) : Prop :=
  ∀ item, world.pin item = some .releasing → world.lastWord item = some false

/-- Work that takes in no word keeps that, when a release starts to wait only with the
last word against it. -/
theorem Judged.of_pins (h : Judged world) (hword : next.lastWord = world.lastWord)
    (hpins : ∀ item, next.pin item = some .releasing →
      world.pin item = some .releasing ∨ world.lastWord item = some false) : Judged next := by
  intro item hpin
  rw [hword]
  rcases hpins item hpin with hold | hnew
  · exact h item hold
  · exact hnew

theorem lastWord_releaseIfSafe (look : Look) :
    (world.releaseIfSafe me item look).lastWord = world.lastWord := by
  rw [releaseIfSafe]
  split
  · rfl
  · dsimp only
    split
    · rfl
    · rfl

theorem Judged.releaseIfSafe (h : Judged world) {look : Look}
    (hword : world.lastWord item = some false) : Judged (world.releaseIfSafe me item look) := by
  refine h.of_pins (lastWord_releaseIfSafe look) fun other hpin => ?_
  by_cases heq : other = item
  · exact Or.inr (heq ▸ hword)
  · rcases pin_releaseIfSafe_of_ne me world look heq with hpins | ⟨-, turn, hqueued⟩
    · exact Or.inl (hpins ▸ hpin)
    · rw [hqueued] at hpin
      cases hpin

theorem Judged.lose (h : Judged world) {look : Look} (hword : world.lastWord item = some false) :
    Judged (world.lose me item look) := by
  rw [World.lose]
  split
  · exact h
  · exact h
  · exact h.releaseIfSafe hword

theorem Judged.want (h : ∀ other, other ≠ item → world.pin other = some .releasing →
    world.lastWord other = some false) :
    Judged { world with pins := world.pins.want item } := by
  intro other hpin
  rw [pin_want] at hpin
  split at hpin
  · exact absurd (Option.some.inj hpin) (wanted_ne_releasing _ _)
  · rename_i hne
    exact h other hne hpin

theorem Judged.setPin (h : ∀ other, other ≠ item → world.pin other = some .releasing →
    world.lastWord other = some false) {pin : Pin} (hpin : pin ≠ .releasing) :
    Judged (world.setPin item pin) := by
  intro other hother
  rw [World.pin, World.setPin, Pins.set, Std.ExtTreeMap.getElem?_insert] at hother
  split at hother
  · exact absurd (Option.some.inj hother) hpin
  · rename_i hne
    exact h other (by simpa using Ne.symm (by simpa using hne)) hother

theorem Judged.releases {looks : ItemId → Look} (items : List ItemId) :
    ∀ {world : World}, Judged world → (∀ item ∈ items, world.lastWord item = some false) →
      Judged (items.foldl (fun world item => world.releaseIfSafe me item (looks item)) world) := by
  induction items with
  | nil => intro world h _; exact h
  | cons item items ih =>
    intro world h hword
    have hfirst := hword item List.mem_cons_self
    refine ih (h.releaseIfSafe hfirst) fun other hmem => ?_
    rw [lastWord_releaseIfSafe]
    exact hword other (List.mem_cons_of_mem _ hmem)

/-- A fetch that is started is no release. -/
theorem Judged.startFetches (h : Judged world) (sources : PinSources) :
    Judged (world.startFetches me sel sources) := by
  have hspawn : ∀ (world : World) (item : ItemId), Judged world → Judged (world.spawn item) := by
    intro world item h
    have hset : Judged (world.setPin item (.fetching world.nextTask false false)) :=
      .setPin (fun other _ => h other) (by simp)
    exact hset
  rw [World.startFetches]
  split
  · exact h
  · exact exec_invariant (I := Judged) hspawn _ h

/-! ## Every event -/

/-- A whole reading has the last word on every item. -/
theorem lets_readCustodyAgain {reading : Reading}
    (hword : ∀ mine, reading.mine = some mine → ∀ item, item ∉ mine →
      world.lastWord item = some false) :
    Lets me (fun item => some (reading.looks item)) world (world.readCustodyAgain me reading) := by
  rw [readCustodyAgain]
  split
  · exact .quiet rfl rfl rfl
  · rename_i mine hmine
    have hkeep : ∀ (world : World) (item : ItemId),
        Lets me (fun item => some (reading.looks item)) world (keepAgain reading.holds world item) := by
      intro world item
      rcases keepAgain_cases reading.holds world item with h | ⟨h, -⟩
      · rw [h]
        exact .quiet rfl rfl rfl
      · rw [h]
        exact .quiet rfl rfl rfl
    have hwants := exec_invariant
      (I := Lets me (fun item => some (reading.looks item)) world)
      (fun _ item h => h.trans (hkeep _ item)) mine (.quiet rfl rfl rfl)
    refine hwants.trans (lets_all (fun world item h => lets_lose h rfl) _ fun item hlost => ?_)
    rw [hwants.word]
    exact hword mine hmine item (by simpa using (List.mem_filter.mp hlost).2)

theorem lets_availabilityChanged (me : MemberId) (looks : ItemId → Look) (h : Judged world) :
    Lets me (fun item => some (looks item)) world (world.availabilityChanged me looks) ∧
      Judged (world.availabilityChanged me looks) := by
  have hreleasing : ∀ item ∈ (world.pins.pins.keys.filter fun item =>
      world.pin item = some .releasing), world.lastWord item = some false :=
    fun item hmem => h item (by simpa using (List.mem_filter.mp hmem).2)
  have hmarked : Judged { world with pins := world.pins.markAvailability } :=
    h.of_pins rfl fun item hpin => Or.inl ((pin_markAvailability world.pins item).mp hpin)
  have hquiet : Lets me (fun item => some (looks item)) world
      { world with pins := world.pins.markAvailability } := .quiet rfl rfl rfl
  constructor
  · exact hquiet.trans (lets_all (fun world item h => lets_releaseIfSafe h rfl) _ hreleasing)
  · exact hmarked.releases _ hreleasing

theorem lets_fetched (me : MemberId) (shown : ItemId → Option Look) (kept : Except KeepError Unit)
    {keeps : Bool} {look : Look} {task : ℕ} (h : Judged world) (htask : world.pins.taskOf item = some task)
    (hword : world.lastWord item = some keeps) (hshown : shown item = some look) :
    Lets me shown world (world.fetched me item kept keeps look) ∧
      Judged (world.fetched me item kept keeps look) := by
  obtain ⟨pin, hpin, hnames⟩ := Option.bind_eq_some_iff.mp htask
  cases pin with
  | fetching task' wantedAgain changed =>
    rw [fetched.eq_def, World.pin, hpin]
    dsimp only
    split
    · rename_i hlost
      have hfalse : world.lastWord item = some false := by simpa [hword] using hlost
      exact ⟨lets_releaseIfSafe hfalse hshown, h.releaseIfSafe hfalse⟩
    · split
      · have hqueued : Judged (world.setPin item (.queued world.pins.nextTurn)) :=
          .setPin (fun other _ => h other) (by simp)
        exact ⟨.quiet rfl rfl rfl, hqueued⟩
      · refine ⟨.quiet rfl rfl rfl, .setPin (fun other _ => h other) ?_⟩
        rcases restingPin_cases kept with h | h | h <;> rw [h] <;> simp
  | _ => cases hnames

/-- What an event says nothing about keeps its last word. -/
theorem lastWord_told {event : Event} (h : world.word event item = none) :
    (world.told event).lastWord item = world.lastWord item := by
  simp [told, h]

theorem lastWord_told_of_word {event : Event} {mine : Bool} (h : world.word event item = some mine) :
    (world.told event).lastWord item = some mine := by
  simp [told, h]

/-- An event that brings no word leaves what waits with the last word against it. -/
theorem Judged.told (h : Judged world) (event : Event) (hnone : ∀ item, world.word event item = none) :
    Judged (world.told event) :=
  fun item hpin => (lastWord_told (hnone item)).trans (h item hpin)

/-- A whole reading that found custody computed has kept what is this node's, and what it
lets go it has just said is not. -/
theorem lets_hear_recomputed (me : MemberId) (h : Judged world) (reading : Reading) :
    Lets me (fun item => some (reading.looks item)) (world.told (.recomputed reading))
        (world.hear me (.recomputed reading)) ∧ Judged (world.hear me (.recomputed reading)) := by
  have hlets : Lets me (fun item => some (reading.looks item)) (world.told (.recomputed reading))
      ((world.told (.recomputed reading)).readCustodyAgain me reading) := by
    refine lets_readCustodyAgain fun mine hmine item hnot => lastWord_told_of_word ?_
    rw [word, hmine, Option.map_some, decide_eq_false hnot]
  refine ⟨hlets, ?_⟩
  rcases hmine : reading.mine with _ | mine
  · rw [hear, handle, readCustodyAgain, hmine]
    exact h.told (.recomputed reading) fun item => by rw [word, hmine]; rfl
  · intro item hpin
    obtain ⟨hkept, -⟩ := assigned_readCustodyAgain (world.told (.recomputed reading)) reading hmine
    have hnot : item ∉ mine := by
      intro hmem
      obtain ⟨pin, hpin', hne⟩ := hkept item hmem
      exact hne (Option.some.inj (hpin'.symm.trans hpin))
    rw [hear, handle, hlets.word]
    refine lastWord_told_of_word ?_
    rw [word, hmine, Option.map_some, decide_eq_false hnot]

/-- A change of one item's custody has the last word on that item, and on no other. -/
theorem lets_hear_item (me : MemberId) (h : Judged world) (changed : ItemId) (mine : Bool)
    (look : Look) :
    Lets me (Event.look (.item changed mine look)) (world.told (.item changed mine look))
        (world.hear me (.item changed mine look)) ∧
      Judged (world.hear me (.item changed mine look)) := by
  have hothers : ∀ other, other ≠ changed → world.pin other = some .releasing →
      (world.told (.item changed mine look)).lastWord other = some false := by
    intro other hne hpin
    rw [lastWord_told (by rw [word, if_neg hne])]
    exact h other hpin
  cases mine with
  | true => exact ⟨.quiet rfl rfl rfl, .want hothers⟩
  | false =>
    have hword : (world.told (.item changed false look)).lastWord changed = some false :=
      lastWord_told_of_word (by rw [word, if_pos rfl])
    refine ⟨lets_lose hword (by rw [Event.look, if_pos ⟨rfl, rfl⟩]), Judged.lose ?_ hword⟩
    intro other hpin
    by_cases hne : other = changed
    · exact hne ▸ hword
    · exact hothers other hne hpin

/-- What is released on a change of availability has been waiting for it. -/
theorem lets_hear_gathered (me : MemberId) (h : Judged world) (looks : ItemId → Look) :
    Lets me (fun item => some (looks item)) (world.told (.gathered looks))
        (world.hear me (.gathered looks)) ∧ Judged (world.hear me (.gathered looks)) := by
  rw [hear, handle]
  split
  · have hjudged : Judged { world.told (.gathered looks) with lookAtAvailability := false } :=
      h.told (.gathered looks) fun _ => rfl
    have hquiet : Lets me (fun item => some (looks item)) (world.told (.gathered looks))
        { world.told (.gathered looks) with lookAtAvailability := false } := .quiet rfl rfl rfl
    obtain ⟨hlets, hnext⟩ := lets_availabilityChanged me looks hjudged
    exact ⟨hquiet.trans hlets, hnext⟩
  · exact ⟨.quiet rfl rfl rfl, h.told (.gathered looks) fun _ => rfl⟩

/-- The check at the end of a fetch has the last word on the item that was fetched. -/
theorem lets_hear_fetched (me : MemberId) (hmatched : Matched maxFetches world) (h : Judged world)
    (task : ℕ) (kept : Except KeepError Unit) (keeps : Bool) (look : Look) :
    Lets me (fun _ => some look) (world.told (.fetched task kept keeps look))
        (world.hear me (.fetched task kept keeps look)) ∧
      Judged (world.hear me (.fetched task kept keeps look)) := by
  rw [hear, handle]
  split
  · rename_i hgone
    refine ⟨.quiet rfl rfl rfl, h.told (.fetched task kept keeps look) fun item => ?_⟩
    rw [word, if_neg]
    intro hmine
    cases (hmine.symm.trans hgone)
  · rename_i item hjoined
    have htask : world.fetches[task]? = some item := hjoined
    have hnames := (hmatched.tasks item task).mpr htask
    have hjudged : Judged { world.told (.fetched task kept keeps look) with
        fetches := world.fetches.erase task } := by
      intro other hpin
      have hne : other ≠ item := by
        intro heq
        rw [taskOf_of_releasing (heq ▸ hpin)] at hnames
        cases hnames
      refine (lastWord_told ?_).trans (h other hpin)
      rw [word, if_neg]
      intro hmine
      exact hne (Option.some.inj (hmine.symm.trans htask))
    have hword : (world.told (.fetched task kept keeps look)).lastWord item = some keeps :=
      lastWord_told_of_word (by rw [word, if_pos htask])
    have hquiet : Lets me (fun _ => some look) (world.told (.fetched task kept keeps look))
        { world.told (.fetched task kept keeps look) with fetches := world.fetches.erase task } :=
      .quiet rfl rfl rfl
    obtain ⟨hlets, hnext⟩ := lets_fetched me (fun _ => some look) kept hjudged hnames hword rfl
    exact ⟨hquiet.trans hlets, hnext⟩

/-- **What one event lets go.** -/
theorem lets_hear (me : MemberId) (hmatched : Matched maxFetches world) (h : Judged world)
    (event : Event) :
    Lets me event.look (world.told event) (world.hear me event) ∧ Judged (world.hear me event) := by
  cases event with
  | recomputed reading => exact lets_hear_recomputed me h reading
  | item changed mine look => exact lets_hear_item me h changed mine look
  | availabilityChanged => exact ⟨.quiet rfl rfl rfl, h.told .availabilityChanged fun _ => rfl⟩
  | gathered looks => exact lets_hear_gathered me h looks
  | fetched task kept keeps look => exact lets_hear_fetched me hmatched h task kept keeps look
  | panicked task =>
    have htold : Judged (world.told (.panicked task)) := h.told (.panicked task) fun _ => rfl
    rw [hear, handle]
    split
    · exact ⟨.quiet rfl rfl rfl, htold⟩
    · rw [fetchPanicked]
      split
      · exact ⟨.quiet rfl rfl rfl, .setPin (fun other _ => htold other) (by simp)⟩
      · exact ⟨.quiet rfl rfl rfl, htold⟩

/-! ## Every run -/

theorem Judged.step (hmatched : Matched maxFetches world) (h : Judged world) (step : Step) :
    Judged (world.step me sel step) := by
  cases step with
  | others tagging => exact h
  | loop sources event =>
    exact (lets_hear me (hmatched.startFetches sources) (h.startFetches sources) event).2

end World

end Pins

end Distlib
