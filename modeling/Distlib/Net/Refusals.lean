import Distlib.Core.Id
import Distlib.Lib.GuardedRun

/-!
# Refusals summarised

Who is refused is logged, since that is the audit trail, but not every time: anybody
may knock as fast as they like. A peer's first refusal is a line; those of the next
minute are counted only, and the first one after it is a line with their number.

The peers this is kept of are strangers, so there is room for 64 of them. For one
more, the one whose line is the oldest is dropped, and its count with it. That was
meant to be whoever has been quiet longest, and it is not, when the peer with the
oldest line has been refused since and another one has not: then the peer that keeps
knocking is the one forgotten, its next refusal is a line again, and what it was
counted for is lost. `refusals_summarised_iff` says that nothing else goes wrong, but
for a count that goes round at 2^64.

A run is the calls in the order they took the lock, at times that never go back.
The order a hash map is iterated in is a part of the call, and any order will do.
Beside the table stands what has been said of every refusal so far, the newest first:
it is what the table is held against. Times are nanoseconds.
-/

namespace Distlib

open OrdMap GuardedRun

/-- How long the same peer's refusals are summarised rather than logged: a minute. -/
def REFUSAL_QUIET : ℕ := 60 * 1000000000

/-- How many peers may be remembered for that purpose. -/
def REFUSALS_REMEMBERED : ℕ := 64

/-- One peer's refusals since the last time they were logged. -/
structure Refusals where
  lastLogged : ℕ
  since : ℕ
  deriving DecidableEq

namespace Refusals

/-- Every refused peer remembered. -/
abbrev Table : Type := OrdMap MemberId Refusals

/-- A peer is refused. -/
structure Call where
  peer : MemberId
  now : ℕ
  /-- the order the map is iterated in, if it is -/
  order : List (MemberId × Refusals) → List (MemberId × Refusals)
  perm : ∀ entries, (order entries).Perm entries

/-- The first of the peers with the oldest line. -/
def stalest (refusals : Table) (call : Call) : Option (MemberId × Refusals) :=
  (call.order refusals.toList).argmin fun entry => entry.2.lastLogged

/-- Makes room for one more, if there is none. -/
def makeRoom (refusals : Table) (call : Call) : Table :=
  if REFUSALS_REMEMBERED ≤ refusals.size then
    match stalest refusals call with
    | some stalest => refusals.erase stalest.1
    | none => refusals
  else refusals

/-- Records that a peer was refused, and says whether to log it: with the number of
its refusals that went unlogged since the last line. -/
def noteRefusal (refusals : Table) (call : Call) : Option ℕ × Table :=
  match refusals[call.peer]? with
  | some seen =>
    if call.now - seen.lastLogged < REFUSAL_QUIET then
      (none, refusals.insert call.peer { seen with since := (seen.since + 1) % 2 ^ 64 })
    else (some seen.since, refusals.insert call.peer ⟨call.now, 0⟩)
  | none => (some 0, (makeRoom refusals call).insert call.peer ⟨call.now, 0⟩)

/-! ## What has been said -/

/-- A refusal, and the line it was, if it was one. -/
structure Note where
  peer : MemberId
  now : ℕ
  line : Option ℕ
  deriving DecidableEq

/-- The refusals of `peer`, the newest first. -/
def ofPeer (peer : MemberId) (notes : List Note) : List Note := notes.filter (·.peer = peer)

def lastRefused (peer : MemberId) (notes : List Note) : Option ℕ :=
  (ofPeer peer notes).head?.map (·.now)

/-- When the last line about `peer` was written. -/
def lastLine (peer : MemberId) (notes : List Note) : Option ℕ :=
  ((ofPeer peer notes).find? (·.line.isSome)).map (·.now)

/-- How many refusals of `peer` went unlogged since its last line. -/
def unlogged (peer : MemberId) (notes : List Note) : ℕ :=
  ((ofPeer peer notes).takeWhile (·.line.isNone)).length

/-- `peer` was refused for the last time no later than `other`. -/
def NoLater (notes : List Note) (peer other : MemberId) : Prop :=
  ∀ time ∈ lastRefused peer notes, ∀ otherTime ∈ lastRefused other notes, time ≤ otherTime

instance (notes : List Note) (peer other : MemberId) : Decidable (NoLater notes peer other) :=
  inferInstanceAs (Decidable (∀ time ∈ _, ∀ otherTime ∈ _, _))

/-- The table, and what has been said. -/
structure World where
  refusals : Table
  notes : List Note

namespace World

def start : World := ⟨∅, []⟩

def step (w : World) (call : Call) : World :=
  let noted := noteRefusal w.refusals call
  { refusals := noted.2, notes := ⟨call.peer, call.now, noted.1⟩ :: w.notes }

end World

/-- Time does not go back. -/
def InOrder (w : World) (call : Call) : Prop := ∀ last ∈ w.notes.head?, last.now ≤ call.now

instance (w : World) (call : Call) : Decidable (InOrder w call) :=
  inferInstanceAs (Decidable (∀ last ∈ _, _))

/-! ## What is to hold of a call -/

/-- A peer that is remembered gets at most one line in any quiet time. -/
def Paced (w : World) (call : Call) : Prop :=
  call.peer ∈ w.refusals → (noteRefusal w.refusals call).1.isSome →
    ∀ last ∈ lastLine call.peer w.notes, last + REFUSAL_QUIET ≤ call.now

instance (w : World) (call : Call) : Decidable (Paced w call) :=
  inferInstanceAs (Decidable (_ → _ → ∀ last ∈ _, _))

/-- A peer that had a line, and is remembered no more. -/
def Forgotten (w : World) (peer : MemberId) : Prop :=
  peer ∉ w.refusals ∧ (lastLine peer w.notes).isSome

instance (w : World) (peer : MemberId) : Decidable (Forgotten w peer) :=
  inferInstanceAs (Decidable (_ ∧ _))

/-- A line says how many refusals went unlogged since the last one, unless the peer
was forgotten meanwhile. -/
def Exact (w : World) (call : Call) : Prop :=
  ¬ Forgotten w call.peer →
    ∀ line ∈ (noteRefusal w.refusals call).1, line = unlogged call.peer w.notes

instance (w : World) (call : Call) : Decidable (Exact w call) :=
  inferInstanceAs (Decidable (_ → ∀ line ∈ _, _))

/-- A peer that is dropped is one whose last refusal is the longest ago. -/
def DropsQuietest (w : World) (call : Call) : Prop :=
  ∀ dropped ∈ w.refusals.keys, dropped ∉ (noteRefusal w.refusals call).2 →
    ∀ other ∈ w.refusals.keys, NoLater w.notes dropped other

instance (w : World) (call : Call) : Decidable (DropsQuietest w call) :=
  inferInstanceAs (Decidable (∀ dropped ∈ _, _ → ∀ other ∈ _, _))

/-- All of it. -/
def Summarised (w : World) (call : Call) : Prop :=
  Paced w call ∧ Exact w call ∧ DropsQuietest w call

instance (w : World) (call : Call) : Decidable (Summarised w call) :=
  inferInstanceAs (Decidable (_ ∧ _ ∧ _))

/-! ## When it does -/

/-- The count of a line that is due has not gone round. -/
def Counted (w : World) (call : Call) : Prop :=
  ∀ seen ∈ w.refusals[call.peer]?, REFUSAL_QUIET ≤ call.now - seen.lastLogged →
    unlogged call.peer w.notes < 2 ^ 64

/-- `other` has knocked since `peer` did last, or just then. -/
def KnockedSince (notes : List Note) (peer other : MemberId) : Prop :=
  ∀ time ∈ lastRefused peer notes, ∃ note ∈ ofPeer other notes, time ≤ note.now

instance (notes : List Note) (peer other : MemberId) : Decidable (KnockedSince notes peer other) :=
  inferInstanceAs (Decidable (∀ time ∈ _, ∃ note ∈ ofPeer other notes, time ≤ note.now))

/-- When a peer that is not remembered finds no room, the first of those whose line is
the oldest has nothing unlogged since; or it has, and all of those remembered have
knocked since its last one. -/
def OldestIsQuiet (w : World) (call : Call) : Prop :=
  call.peer ∉ w.refusals → REFUSALS_REMEMBERED ≤ w.refusals.size →
    ∀ oldest ∈ stalest w.refusals call, 0 < unlogged oldest.1 w.notes →
      ∀ other ∈ w.refusals.keys, KnockedSince w.notes oldest.1 other

instance (w : World) (call : Call) : Decidable (Counted w call) :=
  inferInstanceAs (Decidable (∀ seen ∈ _, _ → _))

instance (w : World) (call : Call) : Decidable (OldestIsQuiet w call) :=
  inferInstanceAs (Decidable (_ → _ → ∀ oldest ∈ _, _ → ∀ other ∈ _, _))

/-! ## The table, a call at a time -/

section Run

variable {w : World} {refusals : Table} {call : Call} {peer other : MemberId} {notes : List Note} {note : Note}

/-- What a call is: one more refusal in a quiet time, a line that was due, or the first
of a peer not remembered. -/
theorem noteRefusal_cases (refusals : Table) (call : Call) :
    (∃ seen, refusals[call.peer]? = some seen ∧ call.now - seen.lastLogged < REFUSAL_QUIET ∧
      noteRefusal refusals call =
        (none, refusals.insert call.peer ⟨seen.lastLogged, (seen.since + 1) % 2 ^ 64⟩)) ∨
    (∃ seen, refusals[call.peer]? = some seen ∧ REFUSAL_QUIET ≤ call.now - seen.lastLogged ∧
      noteRefusal refusals call = (some seen.since, refusals.insert call.peer ⟨call.now, 0⟩)) ∨
    (refusals[call.peer]? = none ∧
      noteRefusal refusals call =
        (some 0, (makeRoom refusals call).insert call.peer ⟨call.now, 0⟩)) := by
  unfold noteRefusal
  rcases hseen : refusals[call.peer]? with _ | seen
  · exact Or.inr (Or.inr ⟨rfl, rfl⟩)
  · by_cases hquiet : call.now - seen.lastLogged < REFUSAL_QUIET
    · exact Or.inl ⟨seen, rfl, hquiet, if_pos hquiet⟩
    · exact Or.inr (Or.inl ⟨seen, rfl, Nat.le_of_not_lt hquiet, if_neg hquiet⟩)

/-- Whom making room drops. -/
def Drops (refusals : Table) (call : Call) (peer : MemberId) : Prop :=
  REFUSALS_REMEMBERED ≤ refusals.size ∧ ∃ oldest ∈ stalest refusals call, oldest.1 = peer

theorem mem_makeRoom (refusals : Table) (call : Call) :
    peer ∈ makeRoom refusals call ↔ peer ∈ refusals ∧ ¬ Drops refusals call peer := by
  rw [makeRoom, Drops]
  by_cases hfull : REFUSALS_REMEMBERED ≤ refusals.size
  · rcases hstalest : stalest refusals call with _ | oldest
    · simp [hfull]
    · simp [hfull, and_comm]
  · simp [hfull]

theorem getElem?_makeRoom (h : peer ∈ makeRoom refusals call) :
    (makeRoom refusals call)[peer]? = refusals[peer]? := by
  rw [makeRoom] at h ⊢
  split at h
  · rename_i hfull
    split at h
    · have hne := (Std.ExtTreeMap.mem_erase.mp h).1
      simp only [if_pos hfull, Std.ExtTreeMap.getElem?_erase, hne, if_false]
    · rw [if_pos hfull]
  · rename_i hroom
    rw [if_neg hroom]

theorem stalest_spec {oldest : MemberId × Refusals} (h : oldest ∈ stalest refusals call) :
    refusals[oldest.1]? = some oldest.2 ∧
      ∀ (peer : MemberId) (seen : Refusals), refusals[peer]? = some seen →
        oldest.2.lastLogged ≤ seen.lastLogged := by
  refine ⟨?_, fun peer seen hseen => ?_⟩
  · have hmem := (call.perm _).mem_iff.mp (List.argmin_mem h)
    exact Std.ExtTreeMap.mem_toList_iff_getElem?_eq_some.mp hmem
  · have hmem : (peer, seen) ∈ call.order refusals.toList :=
      (call.perm _).mem_iff.mpr (Std.ExtTreeMap.mem_toList_iff_getElem?_eq_some.mpr hseen)
    have hle := List.le_of_mem_argmin hmem h
    exact hle

/-- Of the peers remembered, a call drops the oldest it has no room beside. -/
theorem dropped_iff (hpeer : peer ∈ refusals) :
    peer ∉ (noteRefusal refusals call).2 ↔ call.peer ∉ refusals ∧ Drops refusals call peer := by
  rcases noteRefusal_cases refusals call with ⟨seen, hseen, -, hnote⟩ | ⟨seen, hseen, -, hnote⟩ |
    ⟨hnone, hnote⟩
  · have hknown : call.peer ∈ refusals := OrdMap.mem_iff_exists.mpr ⟨seen, hseen⟩
    simp [hnote, hknown, hpeer]
  · have hknown : call.peer ∈ refusals := OrdMap.mem_iff_exists.mpr ⟨seen, hseen⟩
    simp [hnote, hknown, hpeer]
  · have hunknown := OrdMap.notMem_of_getElem?_eq_none hnone
    have hne : call.peer ≠ peer := fun heq => hunknown (heq ▸ hpeer)
    simp [hnote, mem_makeRoom, hne, hpeer, hunknown]

/-- What a call says of a peer is what was known of it, unless it is the one refused. -/
theorem getElem?_of_ne {seen : Refusals} (hpeer : call.peer ≠ peer)
    (h : (noteRefusal refusals call).2[peer]? = some seen) : refusals[peer]? = some seen := by
  rcases noteRefusal_cases refusals call with ⟨known, -, -, hnote⟩ | ⟨known, -, -, hnote⟩ |
    ⟨-, hnote⟩
  · simpa [hnote, Std.ExtTreeMap.getElem?_insert, hpeer] using h
  · simpa [hnote, Std.ExtTreeMap.getElem?_insert, hpeer] using h
  · have hroom : (makeRoom refusals call)[peer]? = some seen := by
      simpa [hnote, Std.ExtTreeMap.getElem?_insert, hpeer] using h
    rw [← getElem?_makeRoom (OrdMap.mem_iff_exists.mpr ⟨seen, hroom⟩)]
    exact hroom

/-! ## What has been said, a refusal at a time -/

theorem ofPeer_cons_self (note : Note) (notes : List Note) :
    ofPeer note.peer (note :: notes) = note :: ofPeer note.peer notes :=
  List.filter_cons_of_pos (decide_eq_true rfl)

theorem ofPeer_cons_of_ne (h : note.peer ≠ peer) (notes : List Note) :
    ofPeer peer (note :: notes) = ofPeer peer notes :=
  List.filter_cons_of_neg (by simpa using h)

/-- A refusal of another peer says nothing of this one. -/
theorem said_cons_of_ne (note : Note) (h : note.peer ≠ peer) (notes : List Note) :
    lastLine peer (note :: notes) = lastLine peer notes ∧
      unlogged peer (note :: notes) = unlogged peer notes := by
  rw [lastLine, unlogged, ofPeer_cons_of_ne h]
  exact ⟨rfl, rfl⟩

theorem said_cons_line (peer : MemberId) (now line : ℕ) (notes : List Note) :
    lastLine peer (⟨peer, now, some line⟩ :: notes) = some now ∧
      unlogged peer (⟨peer, now, some line⟩ :: notes) = 0 := by
  rw [lastLine, unlogged, ofPeer_cons_self ⟨peer, now, some line⟩ notes]
  exact ⟨rfl, rfl⟩

theorem said_cons_unlogged (peer : MemberId) (now : ℕ) (notes : List Note) :
    lastLine peer (⟨peer, now, none⟩ :: notes) = lastLine peer notes ∧
      unlogged peer (⟨peer, now, none⟩ :: notes) = unlogged peer notes + 1 := by
  rw [lastLine, unlogged, ofPeer_cons_self ⟨peer, now, none⟩ notes]
  exact ⟨rfl, rfl⟩

/-- With nothing unlogged since, the last refusal was the last line. -/
theorem lastRefused_of_unlogged_eq_zero (h : unlogged peer notes = 0) :
    lastRefused peer notes = lastLine peer notes := by
  rw [unlogged] at h
  rw [lastRefused, lastLine]
  generalize ofPeer peer notes = refused at h ⊢
  rcases refused with _ | ⟨note, rest⟩
  · rfl
  · rcases hline : note.line with _ | line
    · simp [hline] at h
    · simp [hline]

/-- No line is later than the last refusal. -/
theorem lastLine_le_lastRefused
    (hordered : notes.Pairwise fun later earlier => earlier.now ≤ later.now) :
    ∀ line ∈ lastLine peer notes, ∀ refused ∈ lastRefused peer notes, line ≤ refused := by
  have hof : (ofPeer peer notes).Pairwise fun later earlier => earlier.now ≤ later.now :=
    hordered.filter _
  rw [lastRefused, lastLine]
  generalize ofPeer peer notes = refused at hof ⊢
  rcases refused with _ | ⟨newest, rest⟩
  · intro line hline
    cases hline
  · intro line hline last hlast
    obtain rfl := Option.some.inj hlast
    obtain ⟨note, hnote, rfl⟩ := Option.map_eq_some_iff.mp hline
    rcases List.mem_cons.mp (List.mem_of_find?_eq_some hnote) with rfl | hrest
    · exact le_rfl
    · exact (List.pairwise_cons.mp hof).1 note hrest

/-- Of a peer that has been refused, the last refusal is the latest. -/
theorem noLater_iff_knockedSince
    (hordered : notes.Pairwise fun later earlier => earlier.now ≤ later.now)
    (hrefused : ofPeer other notes ≠ []) :
    NoLater notes peer other ↔ KnockedSince notes peer other := by
  have hof : (ofPeer other notes).Pairwise fun later earlier => earlier.now ≤ later.now :=
    hordered.filter _
  rw [NoLater, KnockedSince, lastRefused.eq_def other]
  generalize ofPeer other notes = refused at hof hrefused ⊢
  obtain ⟨newest, rest, rfl⟩ := List.exists_cons_of_ne_nil hrefused
  constructor
  · intro hlate time htime
    exact ⟨newest, List.mem_cons_self, hlate time htime newest.now rfl⟩
  · intro hknocked time htime otherTime hother
    obtain rfl := Option.some.inj hother
    obtain ⟨note, hnote, hle⟩ := hknocked time htime
    rcases List.mem_cons.mp hnote with rfl | hrest
    · exact hle
    · exact hle.trans ((List.pairwise_cons.mp hof).1 note hrest)

/-! ## Every call -/

/-- What the table is of what has been said: of a peer remembered, when its last line
was and how many of its refusals were none since. -/
structure Kept (w : World) : Prop where
  remembered : ∀ (peer : MemberId) (seen : Refusals), w.refusals[peer]? = some seen →
    lastLine peer w.notes = some seen.lastLogged ∧ seen.since = unlogged peer w.notes % 2 ^ 64
  strangers : ∀ peer, lastLine peer w.notes = none → unlogged peer w.notes = 0
  ordered : w.notes.Pairwise fun later earlier => earlier.now ≤ later.now

theorem kept_start : Kept World.start where
  remembered peer seen hseen := by
    rw [World.start, Std.ExtTreeMap.getElem?_empty] at hseen
    cases hseen
  strangers _ _ := rfl
  ordered := List.Pairwise.nil

theorem Kept.ordered_step (h : Kept w) (horder : InOrder w call) :
    (w.step call).notes.Pairwise fun later earlier => earlier.now ≤ later.now := by
  refine List.pairwise_cons.mpr ⟨fun earlier hearlier => ?_, h.ordered⟩
  rcases hnotes : w.notes with _ | ⟨last, rest⟩
  · rw [hnotes] at hearlier
    cases hearlier
  · have hlast : last.now ≤ call.now := horder last (by rw [hnotes]; rfl)
    rw [hnotes] at hearlier
    rcases List.mem_cons.mp hearlier with rfl | hrest
    · exact hlast
    · have hordered := h.ordered
      rw [hnotes] at hordered
      exact ((List.pairwise_cons.mp hordered).1 earlier hrest).trans hlast

/-- Of the peer refused, the table says what has been said. -/
theorem Kept.refused_step (h : Kept w) (call : Call) :
    ∀ seen ∈ (w.step call).refusals[call.peer]?,
      lastLine call.peer (w.step call).notes = some seen.lastLogged ∧
        seen.since = unlogged call.peer (w.step call).notes % 2 ^ 64 := by
  rcases noteRefusal_cases w.refusals call with ⟨known, hknown, -, hnote⟩ | ⟨known, -, -, hnote⟩ |
    ⟨-, hnote⟩
  · obtain ⟨hline, hsince⟩ := h.remembered _ known hknown
    obtain ⟨hsame, hmore⟩ := said_cons_unlogged call.peer call.now w.notes
    rw [World.step, hnote, Std.ExtTreeMap.getElem?_insert_self, hsame, hmore, hsince, Nat.mod_add_mod]
    rintro seen hseen
    obtain rfl := Option.some.inj hseen
    exact ⟨hline, rfl⟩
  · obtain ⟨hline, hnone⟩ := said_cons_line call.peer call.now known.since w.notes
    rw [World.step, hnote, Std.ExtTreeMap.getElem?_insert_self, hline, hnone]
    rintro seen hseen
    obtain rfl := Option.some.inj hseen
    exact ⟨rfl, rfl⟩
  · obtain ⟨hline, hnone⟩ := said_cons_line call.peer call.now 0 w.notes
    rw [World.step, hnote, Std.ExtTreeMap.getElem?_insert_self, hline, hnone]
    rintro seen hseen
    obtain rfl := Option.some.inj hseen
    exact ⟨rfl, rfl⟩

theorem Kept.step (h : Kept w) (horder : InOrder w call) : Kept (w.step call) where
  remembered peer seen hseen := by
    by_cases hpeer : call.peer = peer
    · subst hpeer
      exact h.refused_step call seen hseen
    · obtain ⟨hline, hsame⟩ := said_cons_of_ne ⟨call.peer, call.now,
        (noteRefusal w.refusals call).1⟩ hpeer w.notes
      rw [World.step, hline, hsame]
      exact h.remembered peer seen (getElem?_of_ne hpeer hseen)
  strangers peer hnone := by
    by_cases hpeer : call.peer = peer
    · subst hpeer
      rcases noteRefusal_cases w.refusals call with ⟨known, hknown, -, hnote⟩ | ⟨known, -, -, hnote⟩ |
        ⟨-, hnote⟩
      · rw [World.step, hnote, (said_cons_unlogged ..).1, (h.remembered _ known hknown).1] at hnone
        cases hnone
      · rw [World.step, hnote, (said_cons_line ..).1] at hnone
        cases hnone
      · rw [World.step, hnote, (said_cons_line ..).1] at hnone
        cases hnone
    · obtain ⟨hline, hsame⟩ := said_cons_of_ne ⟨call.peer, call.now,
        (noteRefusal w.refusals call).1⟩ hpeer w.notes
      rw [World.step, hline] at hnone
      rw [World.step, hsame]
      exact h.strangers peer hnone
  ordered := h.ordered_step horder

/-! ## What each call is like -/

theorem Kept.paced (h : Kept w) (call : Call) : Paced w call := by
  intro hmem hline last hlast
  rcases noteRefusal_cases w.refusals call with ⟨seen, -, -, hnote⟩ | ⟨seen, hseen, hdue, -⟩ |
    ⟨hnone, -⟩
  · rw [hnote] at hline
    cases hline
  · rw [(h.remembered _ seen hseen).1] at hlast
    obtain rfl := Option.some.inj hlast
    rw [REFUSAL_QUIET] at hdue ⊢
    omega
  · exact absurd hmem (OrdMap.notMem_of_getElem?_eq_none hnone)

theorem Kept.exact_iff (h : Kept w) (call : Call) : Exact w call ↔ Counted w call := by
  rw [Exact, Counted]
  rcases noteRefusal_cases w.refusals call with ⟨seen, hseen, hquiet, hnote⟩ |
    ⟨seen, hseen, hdue, hnote⟩ | ⟨hnone, hnote⟩
  · -- no line, and none is due
    rw [hnote, hseen]
    refine ⟨fun _ known hknown hdue => ?_, fun _ _ line hline => by cases hline⟩
    obtain rfl := Option.some.inj hknown
    omega
  · -- the line that is due has the count
    have hremembered : ¬ Forgotten w call.peer :=
      fun hforgotten => hforgotten.1 (OrdMap.mem_iff_exists.mpr ⟨seen, hseen⟩)
    obtain ⟨-, hsince⟩ := h.remembered _ seen hseen
    rw [hnote, hseen]
    constructor
    · intro hexact known hknown _
      have hcount := hexact hremembered seen.since rfl
      omega
    · intro hcounted _ line hline
      obtain rfl := Option.some.inj hline
      have hcount := hcounted seen rfl hdue
      omega
  · -- a first line says 0, and there is nothing else to say
    rw [hnote, hnone]
    refine ⟨fun _ known hknown => by (cases hknown), fun _ hnot line hline => ?_⟩
    obtain rfl := Option.some.inj hline
    have hunknown := OrdMap.notMem_of_getElem?_eq_none hnone
    exact (h.strangers _ (Option.not_isSome_iff_eq_none.mp
      fun hline => hnot ⟨hunknown, hline⟩)).symm

/-- A peer not refused since its line, which is the oldest, is the quietest of all. -/
theorem Kept.noLater_of_unlogged_eq_zero (h : Kept w) {oldest : MemberId × Refusals}
    (holdest : oldest ∈ stalest w.refusals call) (hzero : unlogged oldest.1 w.notes = 0)
    (hother : other ∈ w.refusals) : NoLater w.notes oldest.1 other := by
  obtain ⟨hmem, hle⟩ := stalest_spec holdest
  obtain ⟨seen, hseen⟩ := OrdMap.mem_iff_exists.mp hother
  intro time htime otherTime hotherTime
  rw [lastRefused_of_unlogged_eq_zero hzero, (h.remembered _ _ hmem).1] at htime
  obtain rfl := Option.some.inj htime
  have hline := lastLine_le_lastRefused h.ordered _ (h.remembered _ _ hseen).1 _ hotherTime
  exact (hle other seen hseen).trans hline

/-- A peer that is remembered has been refused. -/
theorem Kept.refused (h : Kept w) (hpeer : peer ∈ w.refusals) : ofPeer peer w.notes ≠ [] := by
  obtain ⟨seen, hseen⟩ := OrdMap.mem_iff_exists.mp hpeer
  have hline := (h.remembered peer seen hseen).1
  intro hnone
  rw [lastLine, hnone] at hline
  cases hline

theorem Kept.dropsQuietest_iff (h : Kept w) (call : Call) :
    DropsQuietest w call ↔ OldestIsQuiet w call := by
  constructor
  · intro hdrops hunknown hfull oldest holdest _ other hother
    have hmem : oldest.1 ∈ w.refusals :=
      OrdMap.mem_iff_exists.mpr ⟨oldest.2, (stalest_spec holdest).1⟩
    have hgone := (dropped_iff hmem).mpr ⟨hunknown, hfull, oldest, holdest, rfl⟩
    exact (noLater_iff_knockedSince h.ordered (h.refused (Std.ExtTreeMap.mem_keys.mp hother))).mp
      (hdrops oldest.1 (Std.ExtTreeMap.mem_keys.mpr hmem) hgone other hother)
  · intro hquiet dropped hdropped hgone other hother
    obtain ⟨hunknown, hfull, oldest, holdest, rfl⟩ :=
      (dropped_iff (Std.ExtTreeMap.mem_keys.mp hdropped)).mp hgone
    rcases Nat.eq_zero_or_pos (unlogged oldest.1 w.notes) with hzero | hpos
    · exact h.noLater_of_unlogged_eq_zero holdest hzero (Std.ExtTreeMap.mem_keys.mp hother)
    · exact (noLater_iff_knockedSince h.ordered
        (h.refused (Std.ExtTreeMap.mem_keys.mp hother))).mpr
          (hquiet hunknown hfull oldest holdest hpos other hother)

/-- **When refusals are summarised**: in every run, whoever is refused when, all of the
following hold of every call

* a peer that is remembered gets at most one line in any quiet time;
* every line of a peer not forgotten meanwhile says how many of its refusals went
  unlogged since the last one;
* whoever is dropped is one whose last refusal is the longest ago

exactly if at every call the count of a line that is due has not gone round at 2^64,
and, if room has to be made, the peer whose line is the oldest has nothing unlogged
since it, or all of those remembered have knocked since its last one. -/
theorem refusals_summarised_iff (calls : List Call)
    (hordered : Along World.step InOrder World.start calls) :
    Along World.step Summarised World.start calls ↔
      Along World.step (fun w call => Counted w call ∧ OldestIsQuiet w call) World.start calls := by
  constructor
  · intro hright
    refine Along.imp_invariant (I := Kept) (fun w call h hok => ⟨h.step hok.1, ?_⟩) kept_start
      (hordered.and hright)
    obtain ⟨-, -, hexact, hdrops⟩ := hok
    exact ⟨(h.exact_iff call).mp hexact, (h.dropsQuietest_iff call).mp hdrops⟩
  · intro hquiet
    refine Along.imp_invariant (I := Kept) (fun w call h hok => ⟨h.step hok.1, ?_⟩) kept_start
      (hordered.and hquiet)
    obtain ⟨-, hcounted, holdest⟩ := hok
    exact ⟨h.paced call, (h.exact_iff call).mpr hcounted, (h.dropsQuietest_iff call).mpr holdest⟩

/-- A refusal of the peer numbered `peer`, at `now`. -/
def knock (peer now : ℕ) : Call := ⟨⟨BitVec.ofNat 256 peer⟩, now, id, fun _ => List.Perm.refl _⟩

/-- One peer knocks three times in a minute and again after it, and another one once. -/
theorem refusals_summarised_iff_minute :
    Along World.step Summarised World.start [knock 2 0, knock 2 30000000000, knock 3 30000000000,
      knock 2 40000000000, knock 2 60000000000] :=
  (refusals_summarised_iff [knock 2 0, knock 2 30000000000, knock 3 30000000000,
    knock 2 40000000000, knock 2 60000000000] (by decide +kernel)).mpr (by decide +kernel)

/-- Sixty-four peers are refused, a nanosecond apart. The first of them is refused again
half a minute later, the others are quiet; then a stranger comes. -/
def hammered : List Call :=
  (List.range 64).map (fun peer => knock peer peer) ++ [knock 0 30000000000, knock 64 40000000000]

/-- The one that keeps knocking is dropped for the stranger, with what it was counted
for, and not one of those that have gone quiet: its next refusal is a line again, a
second later, and says that nothing went unlogged. -/
theorem not_summarised :
    Along World.step InOrder World.start hammered ∧
    ¬ Along World.step Summarised World.start hammered ∧
    Forgotten (exec World.step World.start hammered) (knock 0 0).peer ∧
    unlogged (knock 0 0).peer (exec World.step World.start hammered).notes = 1 ∧
    (noteRefusal (exec World.step World.start hammered).refusals (knock 0 41000000000)).1 =
      some 0 := by
  decide +kernel

end Run

end Refusals

end Distlib
