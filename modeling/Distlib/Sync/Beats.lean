import Distlib.Sync.Holders

/-!
# Holdings, end to end

One member that states what it holds and one node that listens to it. Between
the two lie all the ways things go wrong: beats are lost, repeated and come in
any order, the sender restarts and starts over without a base, it publishes a
new base while an older one is still being fetched, fetches fail and are retried
or come in late, and other members are heard from in between.

`World` is both ends, with the history that the claim is about: every beat that
was stated with the set that was held then, every base a beat has named, and the
set behind the last beat the receiver took in. `Faithful` is the invariant: what
the receiver attributes to the member is nothing at all, or exactly that last
set. **An honest member is never judged broken** because both of its lists are
counted from one base, and undoing the one and applying the other goes through
that base (`restate_known`).

That a base list, fetched and decoded, is the set that was published under its
hash is an assumption (`Lists`), made only of the bases that were named.
-/

namespace Distlib

/-! ## What a change does to a known member -/

namespace Holders

variable {holders : Holders} {member other : MemberId} {base held S S' : Finset ItemId}

/-- From one true statement to another, against one base. -/
theorem restate_known {named : Option ContentHash} {added removed : List ItemId} {beat : Holdings}
    (hstated : holders.stated[member]? = some (.known named added removed S.card))
    (hheld : holders.index.heldBy member = S) (hadded : added.toFinset = S \ base)
    (hremoved : removed.toFinset = base \ S) (hbeat : AddsUp beat base S') :
    (holders.restate member beat).stated[member]? =
        some (.known named beat.added beat.removed S'.card) ∧
      (holders.restate member beat).index.heldBy member = S' := by
  obtain ⟨hundone, hcount, -⟩ := Index.shift_spec member holders.index removed added
  obtain ⟨hshifted, hcount', -⟩ := Index.shift_spec member
    (holders.index.shift member (holders.index.heldBy member).card removed added).2
    beat.added beat.removed
  have hbase : (holders.index.shift member S.card removed added).2.heldBy member = base := by
    rw [← hheld, hundone, hheld, hadded, hremoved]
    ext item
    simp only [Finset.mem_sdiff, Finset.mem_union]
    tauto
  rw [hheld] at hcount hshifted hcount'
  rw [hbase] at hcount hshifted hcount'
  have hset : ((holders.index.shift member S.card removed added).2.shift member base.card
      beat.added beat.removed).2.heldBy member = S' := by
    rw [hshifted, hbeat.added, hbeat.removed]
    ext item
    simp only [Finset.mem_sdiff, Finset.mem_union]
    tauto
  rw [hset] at hcount'
  simp only [restate, hstated, hcount, hcount', hbeat.count, if_true]
  exact ⟨by simp, hset⟩

/-- A base in the map, and the first change on top of it. -/
theorem known_known (named : Option ContentHash) {beat : Holdings}
    (hheld : holders.index.heldBy member = base) (hbeat : AddsUp beat base S) :
    (holders.known member named base.card beat).stated[member]? =
        some (.known named beat.added beat.removed S.card) ∧
      (holders.known member named base.card beat).index.heldBy member = S := by
  have hstated : (holders.stated.insert member (.known named [] [] base.card))[member]? =
      some (.known named [] [] base.card) := by simp
  have hnone : ([] : List ItemId).toFinset = base \ base := by simp
  exact restate_known hstated hheld hnone hnone hbeat

/-! ## Other members are left alone -/

/-- What the node has of `other` is the same in both. -/
def SameFor (other : MemberId) (a b : Holders) : Prop :=
  b.stated[other]? = a.stated[other]? ∧ b.index.heldBy other = a.index.heldBy other

theorem SameFor.trans {a b c : Holders} (hab : SameFor other a b) (hbc : SameFor other b c) :
    SameFor other a c :=
  ⟨hbc.1.trans hab.1, hbc.2.trans hab.2⟩

theorem sameFor_insert (hne : other ≠ member) (stated : Stated) :
    SameFor other holders { holders with stated := holders.stated.insert member stated } := by
  refine ⟨?_, rfl⟩
  simp [Std.ExtTreeMap.getElem?_insert, Ne.symm hne]

theorem sameFor_restate (hne : other ≠ member) (holdings : Holdings) :
    SameFor other holders (holders.restate member holdings) := by
  rw [restate]
  split
  · rename_i named added removed held hstated
    have hundone := (Index.shift_spec member holders.index removed added).2.2 other hne held
    have hshifted := (Index.shift_spec member (holders.index.shift member held removed added).2
      holdings.added holdings.removed).2.2 other hne
      (holders.index.shift member held removed added).1
    simp only
    split
    · exact ⟨(sameFor_insert hne _).1, hshifted.trans hundone⟩
    · refine ⟨(sameFor_insert hne _).1, ?_⟩
      change (Index.clear _ member).heldBy other = _
      rw [Index.heldBy_clear_of_ne hne]
      exact hshifted.trans hundone
  · exact ⟨rfl, rfl⟩

theorem sameFor_known (hne : other ≠ member) (named : Option ContentHash) (held : ℕ)
    (holdings : Holdings) : SameFor other holders (holders.known member named held holdings) :=
  (sameFor_insert hne _).trans (sameFor_restate hne holdings)

theorem sameFor_heardAnew (hne : other ≠ member) (holdings : Holdings) :
    SameFor other holders (holders.heardAnew member holdings).2 := by
  have hcleared : SameFor other holders { holders with index := holders.index.clear member } :=
    ⟨rfl, Index.heldBy_clear_of_ne hne⟩
  rw [heardAnew]
  simp only
  split
  · exact hcleared.trans (sameFor_insert hne _)
  · exact hcleared.trans (sameFor_known hne none 0 holdings)

theorem sameFor_heard (hne : other ≠ member) (holdings : Holdings) :
    SameFor other holders (holders.heard member holdings).2 := by
  rw [heard]
  split
  · split
    · exact sameFor_restate hne holdings
    · exact sameFor_heardAnew hne holdings
  · split
    · exact sameFor_insert hne _
    · exact sameFor_heardAnew hne holdings
  · split
    · exact ⟨rfl, rfl⟩
    · exact sameFor_heardAnew hne holdings
  · exact sameFor_heardAnew hne holdings

theorem sameFor_arrived (hne : other ≠ member) (named : ContentHash) (items : List ItemId) :
    SameFor other holders (holders.arrived member named items).2 := by
  rw [arrived]
  split
  · split
    · have hadded : SameFor other holders
          { holders with index := (Index.addAll member holders.index items).2 } :=
        ⟨rfl, (Index.addAll_spec member holders.index items).2.2 other hne⟩
      exact hadded.trans (sameFor_known hne _ _ _)
    · exact ⟨rfl, rfl⟩
  · exact ⟨rfl, rfl⟩

theorem sameFor_failed (hne : other ≠ member) (named : ContentHash) (retry : Bool) :
    SameFor other holders (holders.failed member named retry) := by
  rw [failed]
  split
  · split
    · exact ⟨rfl, rfl⟩
    · split
      · exact sameFor_insert hne _
      · exact sameFor_insert hne _
  · exact ⟨rfl, rfl⟩

end Holders

/-! ## Taking in a fetched base -/

/-- What fetching a base and decoding it comes to. -/
inductive Fetched : Type where
  /-- the member was not reached -/
  | unreached
  /-- the list is too long, or does not decode: the same hash is the same bytes -/
  | unreadable
  | list (items : List ItemId)
  deriving DecidableEq

/-- Takes a member's fetched base into the map, or, failing, lets the next beat
that names it try again, if trying again could help. -/
def Holders.takeIn (holders : Holders) (member : MemberId) (base : ContentHash) : Fetched → Holders
  | .unreached => holders.failed member base true
  | .unreadable => holders.failed member base false
  | .list items => (holders.arrived member base items).2

theorem Holders.sameFor_takeIn {holders : Holders} {member other : MemberId} (hne : other ≠ member)
    (base : ContentHash) (fetched : Fetched) :
    SameFor other holders (holders.takeIn member base fetched) := by
  cases fetched with
  | unreached => exact sameFor_failed hne base true
  | unreadable => exact sameFor_failed hne base false
  | list items => exact sameFor_arrived hne base items

/-! ## Both ends -/

namespace Beats

/-- A member that states its holdings, a node that hears it, and what has been
said so far. -/
structure World where
  statement : Statement
  holders : Holders
  /-- every beat stated, with the set held when it was -/
  beats : List (Holdings × Finset ItemId)
  /-- every base a beat has named -/
  bases : List Base
  /-- the set behind the last beat of the member that was taken in -/
  taken : Option (Finset ItemId)

/-- Everything that can happen, in any order. -/
inductive Event : Type where
  /-- the member states `held`; `stored` is its blob store's answer, if asked -/
  | states (held : Finset ItemId) (changedAt now : ℕ) (stored : Option ContentHash)
  /-- the member starts again, with nothing published -/
  | restarts
  /-- the node takes in one of the beats ever stated -/
  | hears (beat : ℕ)
  /-- a fetch of one of the member's bases ends, the member reached or not -/
  | fetched (base : ContentHash) (reached : Bool)
  | hearsOther (other : MemberId) (holdings : Holdings)
  | fetchedOther (other : MemberId) (base : ContentHash) (fetched : Fetched)
  | membership (isMember : MemberId → Bool)
  | probed (failedCopies : Finset (MemberId × ItemId))

namespace World

def new : World := ⟨.new, .new, [], [], none⟩

/-- `listed` is what each list decodes to, if it does. -/
def step (listed : ContentHash → Option (List ItemId)) (member : MemberId) (w : World) :
    Event → World
  | .states held changedAt now stored =>
    match w.statement.holdings held changedAt now stored with
    | (none, statement) => { w with statement }
    | (some beat, statement) =>
      { w with
        statement
        beats := w.beats ++ [(beat, held)]
        bases := w.bases ++ statement.base.toList }
  | .restarts => { w with statement := .new }
  | .hears beat =>
    match w.beats[beat]? with
    | none => w
    | some (holdings, held) =>
      { w with holders := (w.holders.heard member holdings).2, taken := some held }
  | .fetched base reached =>
    let fetched : Fetched :=
      if reached then
        match listed base with
        | some items => .list items
        | none => .unreadable
      else .unreached
    { w with holders := w.holders.takeIn member base fetched }
  | .hearsOther other holdings =>
    if other = member then w else { w with holders := (w.holders.heard other holdings).2 }
  | .fetchedOther other base fetched =>
    if other = member then w else { w with holders := w.holders.takeIn other base fetched }
  | .membership isMember => { w with holders := w.holders.retainMembers isMember }
  | .probed failedCopies => { w with holders := (w.holders.setFailedCopies failedCopies).2 }

def run (listed : ContentHash → Option (List ItemId)) (member : MemberId) (events : List Event) :
    World :=
  events.foldl (step listed member) new

/-- A fetched base list decodes to the set that was published under its hash. -/
def Lists (listed : ContentHash → Option (List ItemId)) (bases : List Base) : Prop :=
  ∀ base ∈ bases, (listed base.hash).map List.toFinset = some base.items

/-- The set a beat counts from: what the list it names holds, or nothing. -/
def Names (bases : List Base) (named : Option ContentHash) (items : Finset ItemId) : Prop :=
  (named = none ∧ items = ∅) ∨ ∃ hash, named = some hash ∧ (⟨hash, items⟩ : Base) ∈ bases

theorem Names.mono {bases more : List Base} {named : Option ContentHash} {items : Finset ItemId}
    (h : Names bases named items) (hsub : bases ⊆ more) : Names more named items := by
  rcases h with hnone | ⟨hash, hnamed, hmem⟩
  · exact Or.inl hnone
  · exact Or.inr ⟨hash, hnamed, hsub hmem⟩

/-- One name, one set. -/
theorem Names.unique {listed : ContentHash → Option (List ItemId)} {bases : List Base}
    {named : Option ContentHash} {a b : Finset ItemId} (hlists : Lists listed bases)
    (ha : Names bases named a) (hb : Names bases named b) : a = b := by
  rcases ha with ⟨rfl, rfl⟩ | ⟨hash, rfl, hmem⟩ <;> rcases hb with ⟨hnone, rfl⟩ | ⟨hash', hsame, hmem'⟩
  · rfl
  · cases hsame
  · cases hnone
  · obtain rfl := Option.some.inj hsame
    exact Option.some.inj ((hlists _ hmem).symm.trans (hlists _ hmem'))

/-! ## The invariant -/

/-- What the node has of the member: nothing yet, or the last beat's base is on
its way, or exactly the last beat's set. -/
def Attributed (w : World) (member : MemberId) : Prop :=
  match w.holders.stated[member]? with
  | none => w.holders.index.heldBy member = ∅
  | some (.unknown base latest _) =>
    w.holders.index.heldBy member = ∅ ∧ latest.base = some base ∧
      ∃ held, w.taken = some held ∧ (latest, held) ∈ w.beats
  | some (.known base added removed count) =>
    ∃ beat held, w.taken = some held ∧ (beat, held) ∈ w.beats ∧ beat.base = base ∧
      beat.added = added ∧ beat.removed = removed ∧ w.holders.index.heldBy member = held ∧
      count = held.card
  | some (.broken _) => False

structure Faithful (w : World) (member : MemberId) : Prop where
  /-- the sender counts from a base a beat has named -/
  current : ∀ base, w.statement.base = some base → base ∈ w.bases
  /-- every beat is true of the set held when it was stated -/
  honest : ∀ beat held, (beat, held) ∈ w.beats →
    ∃ base, Names w.bases beat.base base ∧ AddsUp beat base held
  attributed : Attributed w member

variable {w : World} {member : MemberId} {listed : ContentHash → Option (List ItemId)}
  {beat : Holdings} {held : Finset ItemId}

theorem Attributed.of_known
    (hstated : w.holders.stated[member]? = some (.known beat.base beat.added beat.removed held.card))
    (hheld : w.holders.index.heldBy member = held) (htaken : w.taken = some held)
    (hbeat : (beat, held) ∈ w.beats) : Attributed w member := by
  rw [Attributed]
  rw [hstated]
  exact ⟨beat, held, htaken, hbeat, rfl, rfl, rfl, hheld, rfl⟩

/-- What has been said of the member stands while nothing touches it. -/
theorem Attributed.frame {w' : World} (h : Attributed w member)
    (hsame : Holders.SameFor member w.holders w'.holders) (htaken : w'.taken = w.taken)
    (hbeats : w.beats ⊆ w'.beats) : Attributed w' member := by
  obtain ⟨hstated, hheld⟩ := hsame
  rw [Attributed] at h ⊢
  rw [hstated, hheld, htaken]
  split at h
  · exact h
  · obtain ⟨hempty, hbase, held, htaken, hmem⟩ := h
    exact ⟨hempty, hbase, held, htaken, hbeats hmem⟩
  · obtain ⟨beat, held, htaken, hmem, hrest⟩ := h
    exact ⟨beat, held, htaken, hbeats hmem, hrest⟩
  · exact h

/-- A beat that starts over: its base is to be fetched, or it has none and says
everything itself. -/
theorem attributed_heardAnew {base : Finset ItemId} (hbeat : (beat, held) ∈ w.beats)
    (hnames : Names w.bases beat.base base) (hadds : AddsUp beat base held) :
    Attributed { w with holders := (w.holders.heardAnew member beat).2, taken := some held } member := by
  rcases hbase : beat.base with _ | hash
  · obtain rfl : base = ∅ := by
      rcases hnames with ⟨-, hempty⟩ | ⟨hash, hsome, -⟩
      · exact hempty
      · rw [hbase] at hsome
        cases hsome
    have hcleared : ({ w.holders with index := w.holders.index.clear member } :
        Holders).index.heldBy member = ∅ := Index.heldBy_clear
    obtain ⟨hstated, hheld⟩ := Holders.known_known none hcleared hadds
    have hholders : (w.holders.heardAnew member beat).2 =
        { w.holders with index := w.holders.index.clear member }.known member none
          (∅ : Finset ItemId).card beat := by
      simp only [Holders.heardAnew, hbase, Finset.card_empty]
    rw [hholders]
    exact .of_known (by rw [hbase]; exact hstated) hheld rfl hbeat
  · have hholders : (w.holders.heardAnew member beat).2 =
        { w.holders with
          index := w.holders.index.clear member
          stated := w.holders.stated.insert member (.unknown hash beat true) } := by
      simp only [Holders.heardAnew, hbase]
    rw [hholders]
    rw [Attributed]
    simp only [Std.ExtTreeMap.getElem?_insert_self]
    exact ⟨Index.heldBy_clear, hbase, held, rfl, hbeat⟩

/-- Hearing one of the beats. -/
theorem attributed_heard (hw : Faithful w member) (hlists : Lists listed w.bases)
    (hbeat : (beat, held) ∈ w.beats) :
    Attributed { w with holders := (w.holders.heard member beat).2, taken := some held } member := by
  obtain ⟨base, hnames, hadds⟩ := hw.honest beat held hbeat
  have hattributed := hw.attributed
  rw [Attributed] at hattributed
  rw [Holders.heard]
  split
  · -- known: from the last beat to this one, through the base they share
    rename_i named added removed count hstated
    rw [hstated] at hattributed
    obtain ⟨last, S, -, hlast, rfl, rfl, rfl, hheld, rfl⟩ := hattributed
    split
    · rename_i hsame
      obtain ⟨base', hnames', hadds'⟩ := hw.honest last S hlast
      rw [hsame] at hnames'
      obtain rfl := hnames'.unique hlists hnames
      obtain ⟨hstated', hheld'⟩ :=
        Holders.restate_known hstated hheld hadds'.added hadds'.removed hadds
      exact .of_known (by rw [← hsame]; exact hstated') hheld' rfl hbeat
    · exact attributed_heardAnew hbeat hnames hadds
  · -- unknown: this beat is the one to apply when the base comes
    rename_i wanted latest fetching hstated
    rw [hstated] at hattributed
    split
    · rename_i hsame
      rw [Attributed]
      simp only [Std.ExtTreeMap.getElem?_insert_self]
      exact ⟨hattributed.1, hsame.symm, held, rfl, hbeat⟩
    · exact attributed_heardAnew hbeat hnames hadds
  · rename_i named hstated
    rw [hstated] at hattributed
    exact hattributed.elim
  · exact attributed_heardAnew hbeat hnames hadds

/-- Only a member whose base is wanted is touched when the base comes, or does not. -/
theorem takeIn_unwanted {base : ContentHash} {fetched : Fetched}
    (hnot : ∀ latest fetching,
      w.holders.stated[member]? ≠ some (.unknown base latest fetching)) :
    w.holders.takeIn member base fetched = w.holders := by
  rcases hstated : w.holders.stated[member]? with _ | (⟨wanted, latest, fetching⟩ | _ | _)
  · cases fetched <;> simp [Holders.takeIn, Holders.failed, Holders.arrived, hstated]
  · have hne : wanted ≠ base := by
      rintro rfl
      exact hnot latest fetching hstated
    cases fetched <;> simp [Holders.takeIn, Holders.failed, Holders.arrived, hstated, hne]
  · cases fetched <;> simp [Holders.takeIn, Holders.failed, Holders.arrived, hstated]
  · cases fetched <;> simp [Holders.takeIn, Holders.failed, Holders.arrived, hstated]

/-- The wanted base arrives: the latest beat is applied to it. -/
theorem attributed_arrived (hw : Faithful w member) (hlists : Lists listed w.bases)
    {base : ContentHash} {latest : Holdings} {fetching : Bool}
    (hstated : w.holders.stated[member]? = some (.unknown base latest fetching)) :
    Attributed (w.step listed member (.fetched base true)) member := by
  have hattributed := hw.attributed
  rw [Attributed] at hattributed
  rw [hstated] at hattributed
  obtain ⟨hempty, hbase, held, htaken, hbeat⟩ := hattributed
  obtain ⟨items, hnames, hadds⟩ := hw.honest latest held hbeat
  have hlisted : (listed base).map List.toFinset = some items := by
    rcases hnames with ⟨hnone, -⟩ | ⟨hash, hsome, hmem⟩
    · rw [hbase] at hnone
      cases hnone
    · rw [hbase] at hsome
      obtain rfl := Option.some.inj hsome
      exact hlists _ hmem
  obtain ⟨ids, hids, rfl⟩ := Option.map_eq_some_iff.mp hlisted
  obtain ⟨hset, hcount, -⟩ := Index.addAll_spec member w.holders.index ids
  rw [hempty, Finset.empty_union] at hset
  rw [hempty, Finset.card_empty, Nat.zero_add, hset] at hcount
  have hadded : ({ w.holders with index := (Index.addAll member w.holders.index ids).2 } :
      Holders).index.heldBy member = ids.toFinset := hset
  obtain ⟨hstated', hheld'⟩ := Holders.known_known (some base) hadded hadds
  simp only [step, if_true, hids, Holders.takeIn, Holders.arrived, hstated, hcount]
  exact .of_known (by rw [hbase]; exact hstated') hheld' htaken hbeat

/-- A fetch of one of the member's bases comes to an end. -/
theorem attributed_fetched (hw : Faithful w member) (hlists : Lists listed w.bases)
    (base : ContentHash) (reached : Bool) :
    Attributed (w.step listed member (.fetched base reached)) member := by
  have hattributed := hw.attributed
  by_cases hwanted : ∃ latest fetching,
      w.holders.stated[member]? = some (.unknown base latest fetching)
  · obtain ⟨latest, fetching, hstated⟩ := hwanted
    rcases reached with _ | _
    · -- not reached: the next beat tries again
      rw [Attributed] at hattributed
      rw [hstated] at hattributed
      obtain ⟨hempty, hbase, held, htaken, hbeat⟩ := hattributed
      simp only [step, Bool.false_eq_true, if_false, Holders.takeIn, Holders.failed, hstated,
        ne_eq, not_true_eq_false, if_true]
      rw [Attributed]
      simp only [Std.ExtTreeMap.getElem?_insert_self]
      exact ⟨hempty, hbase, held, htaken, hbeat⟩
    · exact attributed_arrived hw hlists hstated
  · simp only [step]
    rw [takeIn_unwanted fun latest fetching hstated => hwanted ⟨latest, fetching, hstated⟩]
    exact hattributed

theorem faithful_new (member : MemberId) : Faithful new member where
  current base h := by cases h
  honest beat held h := by cases h
  attributed := by
    rw [Attributed]
    simp only [new, Holders.new, Std.ExtTreeMap.getElem?_empty]
    ext item
    simp [Index.mem_heldBy, Index.holders, Index.empty]

/-- Bases once named stay named. -/
theorem bases_subset_step (event : Event) : w.bases ⊆ (w.step listed member event).bases := by
  cases event with
  | states held changedAt now stored =>
    simp only [step]
    split
    · exact fun _ hmem => hmem
    · exact fun _ hmem => List.mem_append_left _ hmem
  | hears beat =>
    simp only [step]
    split <;> exact fun _ hmem => hmem
  | hearsOther other holdings =>
    simp only [step]
    split <;> exact fun _ hmem => hmem
  | fetchedOther other base fetched =>
    simp only [step]
    split <;> exact fun _ hmem => hmem
  | restarts | fetched | membership | probed => exact fun _ hmem => hmem

/-- A statement adds one true beat, against a base that is on record. -/
theorem faithful_states (hw : Faithful w member) (held : Finset ItemId) (changedAt now : ℕ)
    (stored : Option ContentHash) :
    Faithful (w.step listed member (.states held changedAt now stored)) member := by
  simp only [step]
  rcases hstates : w.statement.holdings held changedAt now stored with ⟨_ | beat, next⟩
  · obtain rfl := holdings_failed hstates
    exact ⟨hw.current, hw.honest, hw.attributed⟩
  · obtain ⟨hbase, hadds, -⟩ := holdings_adds_up hstates
    refine ⟨fun base hcurrent => ?_, fun other S hmem => ?_, ?_⟩
    · exact List.mem_append_right _ (by rw [hcurrent]; exact List.mem_singleton_self _)
    · rcases List.mem_append.mp hmem with hold | hnew
      · obtain ⟨base, hnames, hold⟩ := hw.honest other S hold
        exact ⟨base, hnames.mono (List.subset_append_left _ _), hold⟩
      · obtain ⟨rfl, rfl⟩ := Prod.mk.inj (List.mem_singleton.mp hnew)
        refine ⟨next.baseItems, ?_, hadds⟩
        rw [hbase]
        rcases hcurrent : next.base with _ | base
        · exact Or.inl ⟨rfl, by simp [Statement.baseItems, hcurrent]⟩
        · refine Or.inr ⟨base.hash, rfl, List.mem_append_right _ ?_⟩
          simp [Statement.baseItems, hcurrent]
    · exact hw.attributed.frame ⟨rfl, rfl⟩ rfl (List.subset_append_left _ _)

/-- Whoever is forgotten has nothing attributed; the others keep what they had. -/
theorem attributed_membership (h : Attributed w member) (isMember : MemberId → Bool) :
    Attributed (w.step listed member (.membership isMember)) member := by
  rcases hmember : isMember member with _ | _
  · have hstated : (w.holders.stated.filter fun other _ => isMember other)[member]? = none := by
      rcases hget : (w.holders.stated.filter fun other _ => isMember other)[member]? with _ | stated
      · rfl
      · have hkept := (OrdMap.getElem?_filter_eq_some.mp hget).2
        rw [hmember] at hkept
        cases hkept
    rw [Attributed]
    simp only [step, Holders.retainMembers, hstated]
    rw [Index.heldBy_retain, hmember]
    rfl
  · refine h.frame ⟨?_, ?_⟩ rfl fun _ hmem => hmem
    · simp only [step, Holders.retainMembers]
      rw [Std.ExtTreeMap.getElem?_filter']
      rcases w.holders.stated[member]? with _ | stated
      · rfl
      · simp [hmember]
    · simp only [step, Holders.retainMembers]
      rw [Index.heldBy_retain, hmember]
      rfl

/-- **One step keeps the two ends faithful.** -/
theorem Faithful.step (hw : Faithful w member) (event : Event)
    (hlists : Lists listed w.bases) : Faithful (w.step listed member event) member := by
  cases event with
  | states held changedAt now stored => exact faithful_states hw held changedAt now stored
  | restarts =>
    refine ⟨fun base hcurrent => ?_, hw.honest, hw.attributed⟩
    cases hcurrent
  | hears beat =>
    simp only [World.step]
    rcases hget : w.beats[beat]? with _ | ⟨holdings, held⟩
    · exact hw
    · exact ⟨hw.current, hw.honest, attributed_heard hw hlists (List.mem_of_getElem? hget)⟩
  | fetched base reached => exact ⟨hw.current, hw.honest, attributed_fetched hw hlists base reached⟩
  | hearsOther other holdings =>
    simp only [World.step]
    split
    · exact hw
    · rename_i hne
      exact ⟨hw.current, hw.honest, hw.attributed.frame
        (Holders.sameFor_heard (Ne.symm hne) holdings) rfl fun _ hmem => hmem⟩
  | fetchedOther other base fetched =>
    simp only [World.step]
    split
    · exact hw
    · rename_i hne
      exact ⟨hw.current, hw.honest, hw.attributed.frame
        (Holders.sameFor_takeIn (Ne.symm hne) base fetched) rfl fun _ hmem => hmem⟩
  | membership isMember =>
    exact ⟨hw.current, hw.honest, attributed_membership hw.attributed isMember⟩
  | probed failedCopies =>
    exact ⟨hw.current, hw.honest, hw.attributed.frame ⟨rfl, rfl⟩ rfl fun _ hmem => hmem⟩

/-- Every run is faithful, by induction on its events. -/
theorem faithful_run (listed : ContentHash → Option (List ItemId)) (member : MemberId)
    (events : List Event) (hlists : Lists listed (run listed member events).bases) :
    Faithful (run listed member events) member := by
  induction events using List.reverseRecOn with
  | nil => exact faithful_new member
  | append_singleton events event ih =>
    have hrun : run listed member (events ++ [event]) =
        (run listed member events).step listed member event := by
      simp [run]
    rw [hrun] at hlists ⊢
    have hbefore : Lists listed (run listed member events).bases :=
      fun base hmem => hlists base (bases_subset_step event hmem)
    exact (ih hbefore).step event hbefore

/-- **Holdings, end to end.** Whatever was lost, repeated, delayed, retried or
interleaved: a member that is known has attributed to it exactly the set behind
the last of its beats that was taken in. Every beat stated fits, its change
applied to the list it names is the held set, and its count is the size of that
set; so an honest member is never judged broken. -/
theorem holdings_end_to_end (listed : ContentHash → Option (List ItemId)) (member : MemberId)
    (events : List Event) (hlists : Lists listed (run listed member events).bases) :
    ((run listed member events).holders.isKnown member = true →
      ∃ held, (run listed member events).taken = some held ∧
        ∀ item, member ∈ (run listed member events).holders.holders item ↔ item ∈ held) ∧
    (∀ beat held, (beat, held) ∈ (run listed member events).beats →
      beat.added.length + beat.removed.length ≤ DELTA_MAX ∧
        (∃ base, Names (run listed member events).bases beat.base base ∧
          base \ beat.removed.toFinset ∪ beat.added.toFinset = held) ∧
        beat.count = held.card) ∧
    ∀ base, (run listed member events).holders.stated[member]? ≠ some (.broken base) := by
  have hfaithful := faithful_run listed member events hlists
  generalize run listed member events = w at hfaithful
  have hattributed := hfaithful.attributed
  rw [Attributed] at hattributed
  refine ⟨fun hknown => ?_, fun beat held hmem => ?_, fun base hbroken => ?_⟩
  · rw [Holders.isKnown] at hknown
    split at hknown
    · rename_i named added removed count hstated
      rw [hstated] at hattributed
      obtain ⟨beat, held, htaken, -, -, -, -, hheld, -⟩ := hattributed
      refine ⟨held, htaken, fun item => ?_⟩
      rw [← hheld, Index.mem_heldBy]
      rfl
    · cases hknown
  · obtain ⟨base, hnames, hadds⟩ := hfaithful.honest beat held hmem
    exact ⟨hadds.fits, ⟨base, hnames, hadds.applied⟩, hadds.count⟩
  · rw [hbroken] at hattributed
    exact hattributed

/-- A beat that says everything, then a quiet set published as base 7, its list
fetched at the second try: the node knows the member. -/
theorem holdings_end_to_end_retry :
    let listed : ContentHash → Option (List ItemId) := fun hash =>
      if hash = ⟨7⟩ then some [⟨1⟩, ⟨2⟩] else none
    let events : List Event :=
      [.states {⟨1⟩} 0 0 none, .hears 0, .states {⟨1⟩, ⟨2⟩} 0 QUIET (some ⟨7⟩), .hears 1,
        .fetched ⟨7⟩ false, .hears 1, .fetched ⟨7⟩ true]
    (run listed ⟨5⟩ events).holders.isKnown ⟨5⟩ = true ∧
      ∃ held, (run listed ⟨5⟩ events).taken = some held ∧
        ∀ item, ⟨5⟩ ∈ (run listed ⟨5⟩ events).holders.holders item ↔ item ∈ held := by
  intro listed events
  have hknown : (run listed ⟨5⟩ events).holders.isKnown ⟨5⟩ = true := by decide +kernel
  have hbases : (run listed ⟨5⟩ events).bases = [⟨⟨7⟩, {⟨1⟩, ⟨2⟩}⟩] := by decide +kernel
  refine ⟨hknown, (holdings_end_to_end listed ⟨5⟩ events fun base hmem => ?_).1 hknown⟩
  rw [hbases, List.mem_singleton] at hmem
  subst hmem
  decide

end World

end Beats

end Distlib
