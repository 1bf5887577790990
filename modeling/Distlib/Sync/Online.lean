import Distlib.Lib.GuardedRun
import Distlib.Net.Directory
import Distlib.Sync.Statement

/-!
# Who is online, by the beats heard

A node keeps, for each member, the newest beat it has accepted: its epoch, its
sequence number, and until when the member counts as online. A beat is news when
it is of another epoch than the one held, or has a higher number within it. When
a member leaves, or its beats stop, the entry stays, so that a late beat cannot
bring it back.

An epoch is a random number a member draws when it starts, and tells nothing of
the order the epochs were drawn in. So "another epoch" is not "a later epoch": a
beat from before a restart is news once more, and brings back a member that has
since said goodbye; and then every beat of the later epoch is news again. The
rule is right for the beats of one epoch, and for a sender whose beats arrive
epoch after epoch.

Whom the membership does not admit any more is forgotten at once, and what was
held of it with it. Admitted again, all it has ever said is news again, and what
it said before a goodbye brings it back (`heard_of_forgotten`). The rule that an
entry stays is for members.

`Starts` is the order the receiver does not see, and `InOrder` the condition on
what is delivered: no beat of an epoch that its sender had left before the one
held, and of a member that was forgotten none that it had sent before what was
accepted of it. Under it every accepted beat was sent after all that were before
it (`lt_of_news`), and both promises follow.
-/

namespace Distlib

open GuardedRun

/-- The longest a member waits between beats: twenty minutes, in nanoseconds. -/
def MAX_INTERVAL : ℕ := 20 * 60 * 1000000000

/-- How long a beat may ask to be believed for. -/
def TTL_MIN : ℕ := 1000000000

def TTL_MAX : ℕ := 3 * MAX_INTERVAL

/-- How long a beat from a member beating every `intervalSecs` is believed. -/
def ttl (intervalSecs : UInt32) : ℕ :=
  max TTL_MIN (min (intervalSecs.toNat * 1000000000 * 3) TTL_MAX)

/-! ## The interval a sender beats at, and the one it states -/

/-- Above this many members, each sender stretches its interval in proportion. -/
def BUDGET : ℕ := 50

/-- The longest duration there is: `u64::MAX` seconds, and a nanosecond short of
another. -/
def DURATION_MAX : ℕ := 2 ^ 64 * 1000000000 - 1

/-- `interval` once per fifty members, or part of fifty, and never more than
`MAX_INTERVAL`. -/
def stretch (interval members : ℕ) : ℕ :=
  let times := min (max (members ⌈/⌉ BUDGET) 1) (2 ^ 32 - 1)
  min (min (interval * times) DURATION_MAX) MAX_INTERVAL

/-- `interval` as the beat states it: whole seconds, rounded up from whole
milliseconds, never zero. -/
def wholeSeconds (interval : ℕ) : UInt32 :=
  UInt32.ofNat (max (min (interval / 1000000 ⌈/⌉ 1000) (2 ^ 32 - 1)) 1)

/-- Stretching keeps to whole milliseconds: the longest interval is of whole
milliseconds too, and the longest duration is beyond it. -/
theorem whole_ms_stretch {interval : ℕ} (hwhole : 1000000 ∣ interval) (members : ℕ) :
    1000000 ∣ stretch interval members := by
  have hmax : MAX_INTERVAL ≤ DURATION_MAX := by decide
  rw [stretch, min_assoc, min_eq_right hmax]
  rcases min_choice (interval * min (max (members ⌈/⌉ BUDGET) 1) (2 ^ 32 - 1)) MAX_INTERVAL with
    hshort | hlong
  · rw [hshort]
    exact hwhole.mul_right _
  · rw [hlong]
    exact ⟨20 * 60 * 1000, rfl⟩

theorem stretch_le (interval members : ℕ) : stretch interval members ≤ MAX_INTERVAL :=
  min_le_right _ _

/-- An interval no longer than the longest is stated without saturating. -/
theorem toNat_wholeSeconds {interval : ℕ} (hle : interval ≤ MAX_INTERVAL) :
    (wholeSeconds interval).toNat = max (interval / 1000000 ⌈/⌉ 1000) 1 := by
  have hsmall : interval / 1000000 ⌈/⌉ 1000 ≤ 20 * 60 := by
    rw [MAX_INTERVAL] at hle
    rw [Nat.ceilDiv_eq_add_pred_div]
    omega
  rw [wholeSeconds, min_eq_left (by omega), UInt32.toNat_ofNat_of_lt']
  rw [show UInt32.size = 2 ^ 32 from rfl]
  omega

/-- What a beat states is no shorter than the interval, to the millisecond. -/
theorem le_wholeSeconds {interval : ℕ} (hwhole : 1000000 ∣ interval)
    (hle : interval ≤ MAX_INTERVAL) : interval ≤ (wholeSeconds interval).toNat * 1000000000 := by
  have hround : interval / 1000000 ≤ 1000 * (interval / 1000000 ⌈/⌉ 1000) :=
    le_smul_ceilDiv (by decide : 0 < 1000)
  obtain ⟨ms, rfl⟩ := hwhole
  rw [toNat_wholeSeconds hle]
  omega

/-- **A beat is believed for three of its sender's intervals**, whatever the
setting, in whole milliseconds, and however large the group. None of the three
clamps cuts below what another lets through: what is stated is at least the
stretched interval, and the longest ttl is three of the longest intervals. -/
theorem believed_for_three_intervals (interval members : ℕ) (hwhole : 1000000 ∣ interval) :
    3 * stretch interval members ≤ ttl (wholeSeconds (stretch interval members)) := by
  have hle := stretch_le interval members
  have hstated := le_wholeSeconds (whole_ms_stretch hwhole members) hle
  have hmax : 3 * stretch interval members ≤ TTL_MAX := Nat.mul_le_mul_left 3 hle
  calc 3 * stretch interval members
      ≤ min ((wholeSeconds (stretch interval members)).toNat * 1000000000 * 3) TTL_MAX :=
        le_min (by omega) hmax
    _ ≤ ttl (wholeSeconds (stretch interval members)) := le_max_right _ _

/-- A third of a second at a thousand and one members: stretched to 6.3 s. -/
theorem believed_for_three_intervals_subsecond :
    stretch 300000000 1001 = 6300000000 ∧
      3 * stretch 300000000 1001 ≤ ttl (wholeSeconds (stretch 300000000 1001)) :=
  ⟨by decide, believed_for_three_intervals 300000000 1001 ⟨300, rfl⟩⟩

/-- A nanosecond beyond a whole millisecond is not stated. -/
example : ttl (wholeSeconds (stretch 1000000001 1)) < 3 * stretch 1000000001 1 := by decide

/-- One member's statement about itself. -/
structure Heartbeat where
  address : SignedAddress
  /-- random per start -/
  epoch : ℕ
  /-- one more on every beat, within an epoch -/
  seq : ℕ
  intervalSecs : UInt32
  holdings : Holdings
  /-- said once, on a graceful stop -/
  leaving : Bool
  deriving DecidableEq

def Heartbeat.member (beat : Heartbeat) : MemberId := beat.address.member

/-- The newest beat accepted from one member. -/
structure Online.Heard where
  epoch : ℕ
  seq : ℕ
  /-- when the member stops counting as online; none once it has -/
  until? : Option ℕ
  deriving DecidableEq

/-- The members heard from. -/
structure Online where
  me : MemberId
  beats : OrdMap MemberId Online.Heard

namespace Online

def new (me : MemberId) : Online := ⟨me, ∅⟩

/-- Takes in one beat, verified, heard at `now`; whether it was news. -/
def heard (online : Online) (beat : Heartbeat) (now : ℕ) (isMember : MemberId → Bool) :
    Bool × Online :=
  let member := beat.member
  if member = online.me ∨ !isMember member then (false, online)
  else if online.beats[member]?.any fun held => held.epoch = beat.epoch ∧ beat.seq ≤ held.seq then
    (false, online)
  else
    let until? := if beat.leaving then none else some (now + ttl beat.intervalSecs)
    (true, { online with beats := online.beats.insert member ⟨beat.epoch, beat.seq, until?⟩ })

/-- Takes offline everyone whose beat ran out by `now`. -/
def expire (online : Online) (now : ℕ) : Online :=
  { online with
    beats := online.beats.map fun _ heard =>
      if heard.until?.any fun deadline => deadline ≤ now then { heard with until? := none }
      else heard }

/-- Forgets at once whoever is no longer admitted. -/
def retainMembers (online : Online) (isMember : MemberId → Bool) : Online :=
  { online with beats := online.beats.filter fun member _ => isMember member }

/-- Whether a member counts as online. -/
def isOnline (online : Online) (member : MemberId) : Bool :=
  online.beats[member]?.any fun heard => heard.until?.isSome

/-! ## What one beat does -/

/-- A beat that is news is from an admitted member other than this node, is not
held back by what is held, and is what is held afterwards. -/
theorem heard_cases (online : Online) (beat : Heartbeat) (now : ℕ) (isMember : MemberId → Bool) :
    online.heard beat now isMember = (false, online) ∨
      (beat.member ≠ online.me ∧ isMember beat.member = true ∧
        (∀ held ∈ online.beats[beat.member]?, held.epoch = beat.epoch → held.seq < beat.seq) ∧
        ∃ until?, online.heard beat now isMember =
          (true, { online with
            beats := online.beats.insert beat.member ⟨beat.epoch, beat.seq, until?⟩ })) := by
  rw [heard]
  split
  · exact Or.inl rfl
  · rename_i hadmitted
    split
    · exact Or.inl rfl
    · rename_i hnews
      rw [not_or] at hadmitted
      refine Or.inr ⟨hadmitted.1, by simpa using hadmitted.2, ?_, _, rfl⟩
      intro held hheld hepoch
      rw [Option.mem_def.mp hheld] at hnews
      by_contra hle
      exact hnews (by simp [hepoch, not_lt.mp hle])

/-! ## Deliveries -/

/-- What happens to a receiver: a beat is delivered, whenever and however often,
time passes, or the membership is another. -/
inductive Delivery : Type where
  | beat (beat : Heartbeat) (now : ℕ) (isMember : MemberId → Bool)
  | expire (now : ℕ)
  | members (isMember : MemberId → Bool)

/-- A receiver, and the beats it has taken as news. -/
structure World where
  online : Online
  accepted : List Heartbeat

namespace World

def start (me : MemberId) : World := ⟨.new me, []⟩

def step (world : World) : Delivery → World
  | .beat beat now isMember =>
    let (news, online) := world.online.heard beat now isMember
    { online, accepted := if news then world.accepted ++ [beat] else world.accepted }
  | .expire now => { world with online := world.online.expire now }
  | .members isMember => { world with online := world.online.retainMembers isMember }

end World

/-- Which of a member's starts drew which epoch; each start draws one. -/
structure Starts where
  number : MemberId → ℕ → ℕ
  injective : ∀ member, Function.Injective (number member)

namespace Starts

variable (starts : Starts)

/-- Where a beat stands among those its member has sent. -/
def place (member : MemberId) (epoch seq : ℕ) : ℕ ×ₗ ℕ := toLex (starts.number member epoch, seq)

/-- `older` was sent before `newer`, by the same member. -/
def SentBefore (older newer : Heartbeat) : Prop :=
  older.member = newer.member ∧
    starts.place older.member older.epoch older.seq < starts.place newer.member newer.epoch newer.seq

instance (older newer : Heartbeat) : Decidable (starts.SentBefore older newer) :=
  inferInstanceAs (Decidable (_ ∧ _))

/-- No beat of an epoch its sender had left before the one held is delivered, and
of a member that was forgotten none that it had sent before one that was accepted;
or it is one that would not be taken anyway. -/
def InOrder (world : World) : Delivery → Prop
  | .beat beat _ isMember =>
    beat.member ≠ world.online.me → isMember beat.member = true →
      (∀ held ∈ world.online.beats[beat.member]?,
        starts.number beat.member held.epoch ≤ starts.number beat.member beat.epoch) ∧
      (beat.member ∉ world.online.beats →
        ∀ old ∈ world.accepted, old.member = beat.member → starts.SentBefore old beat)
  | .expire _ | .members _ => True

instance (world : World) : (delivery : Delivery) → Decidable (starts.InOrder world delivery)
  | .beat _ _ _ => inferInstanceAs (Decidable (_ → _ → (∀ _ ∈ _, _) ∧ (_ → ∀ _ ∈ _, _ → _)))
  | .expire _ | .members _ => inferInstanceAs (Decidable True)

variable {starts}

/-- **What is news was sent after what it replaces.** -/
theorem sentAfter_of_news {beat : Heartbeat} {held : Heard}
    (hle : starts.number beat.member held.epoch ≤ starts.number beat.member beat.epoch)
    (hnews : held.epoch = beat.epoch → held.seq < beat.seq) :
    starts.place beat.member held.epoch held.seq < starts.place beat.member beat.epoch beat.seq := by
  rw [place, place, Prod.Lex.toLex_lt_toLex]
  rcases hle.lt_or_eq with hlt | heq
  · exact Or.inl hlt
  · exact Or.inr ⟨heq, hnews (starts.injective _ heq)⟩

end Starts

/-- What is held of a member is the newest of what was accepted of it, and nothing
was accepted twice. -/
structure Newest (starts : Starts) (world : World) : Prop where
  held : ∀ beat ∈ world.accepted, ∀ held ∈ world.online.beats[beat.member]?,
    starts.place beat.member beat.epoch beat.seq ≤ starts.place beat.member held.epoch held.seq
  distinct : world.accepted.Pairwise fun a b =>
    (a.member, a.epoch, a.seq) ≠ (b.member, b.epoch, b.seq)

variable {starts : Starts} {world : World}

/-- The passing of time leaves the epoch and the number held of a member as they were. -/
theorem expire_held (online : Online) (now : ℕ) (member : MemberId) {kept : Heard}
    (h : (online.expire now).beats[member]? = some kept) :
    ∃ held ∈ online.beats[member]?, kept.epoch = held.epoch ∧ kept.seq = held.seq := by
  rw [expire, Std.ExtTreeMap.getElem?_map, Option.map_eq_some_iff] at h
  obtain ⟨held, hheld, rfl⟩ := h
  refine ⟨held, hheld, ?_⟩
  split
  · exact ⟨rfl, rfl⟩
  · exact ⟨rfl, rfl⟩

theorem Newest.expire (h : Newest starts world) (now : ℕ) :
    Newest starts (world.step (.expire now)) := by
  refine ⟨?_, h.distinct⟩
  intro beat hbeat kept hkept
  obtain ⟨held, hheld, hepoch, hseq⟩ := expire_held world.online now beat.member hkept
  rw [hepoch, hseq]
  exact h.held beat hbeat held hheld

/-- What is kept of a change of the membership was held. -/
theorem Newest.members (h : Newest starts world) (isMember : MemberId → Bool) :
    Newest starts (world.step (.members isMember)) :=
  ⟨fun beat hbeat held hheld =>
    h.held beat hbeat held (OrdMap.getElem?_filter_eq_some.mp hheld).1, h.distinct⟩

/-- A beat accepted in order stands after everything accepted of its member. -/
theorem Newest.lt_of_news (h : Newest starts world) {beat : Heartbeat} {now : ℕ}
    {isMember : MemberId → Bool} (hok : starts.InOrder world (.beat beat now isMember))
    (hother : beat.member ≠ world.online.me) (hadmitted : isMember beat.member = true)
    (hnews : ∀ held ∈ world.online.beats[beat.member]?, held.epoch = beat.epoch → held.seq < beat.seq)
    {old : Heartbeat} (hold : old ∈ world.accepted) (hmember : old.member = beat.member) :
    starts.place beat.member old.epoch old.seq < starts.place beat.member beat.epoch beat.seq := by
  obtain ⟨hheld, hforgotten⟩ := hok hother hadmitted
  rcases hbeats : world.online.beats[beat.member]? with _ | held
  · have hbefore := (hforgotten (OrdMap.notMem_of_getElem?_eq_none hbeats) old hold hmember).2
    rwa [hmember] at hbefore
  · have hplace := h.held old hold held (by rw [hmember]; exact hbeats)
    rw [hmember] at hplace
    exact hplace.trans_lt (Starts.sentAfter_of_news (hheld held hbeats) (hnews held hbeats))

theorem Newest.beat (h : Newest starts world) {beat : Heartbeat} {now : ℕ}
    {isMember : MemberId → Bool} (hok : starts.InOrder world (.beat beat now isMember)) :
    Newest starts (world.step (.beat beat now isMember)) := by
  rw [World.step]
  rcases heard_cases world.online beat now isMember with
    hsame | ⟨hother, hadmitted, hnews, until?, heq⟩
  · rw [hsame]
    exact h
  · rw [heq]
    have hlt : ∀ old ∈ world.accepted, old.member = beat.member →
        starts.place beat.member old.epoch old.seq < starts.place beat.member beat.epoch beat.seq :=
      fun old hold hmember => h.lt_of_news hok hother hadmitted hnews hold hmember
    refine ⟨?_, ?_⟩
    · intro old hold held hheld
      by_cases hmember : old.member = beat.member
      · rw [hmember, Option.mem_def, Std.ExtTreeMap.getElem?_insert_self, Option.some_inj] at hheld
        rw [hmember, ← hheld]
        rcases List.mem_append.mp hold with hbefore | hnew
        · exact (hlt old hbefore hmember).le
        · obtain rfl := List.mem_singleton.mp hnew
          exact le_rfl
      · have hbefore : old ∈ world.accepted := by
          rcases List.mem_append.mp hold with hbefore | hnew
          · exact hbefore
          · rw [List.mem_singleton.mp hnew] at hmember
            exact absurd rfl hmember
        refine h.held old hbefore held ?_
        simpa [Std.ExtTreeMap.getElem?_insert, Ne.symm hmember] using hheld
    · refine List.pairwise_append.mpr ⟨h.distinct, List.pairwise_singleton _ _, ?_⟩
      intro old hold new hnew
      obtain rfl := List.mem_singleton.mp hnew
      intro hsame
      simp only [Prod.mk.injEq] at hsame
      obtain ⟨hmember, hepoch, hseq⟩ := hsame
      have hplace := hlt old hold hmember
      rw [hepoch, hseq] at hplace
      exact absurd hplace (lt_irrefl _)

theorem Newest.step (h : Newest starts world) (delivery : Delivery)
    (hok : starts.InOrder world delivery) : Newest starts (world.step delivery) := by
  cases delivery with
  | beat beat now isMember => exact h.beat hok
  | expire now => exact h.expire now
  | members isMember => exact h.members isMember

/-- **Beats are news once, if they arrive epoch after epoch.** Whatever beats are
delivered, in any order within an epoch, with any duplication and any passage of
time, and however the membership changes, as long as none is of an epoch its sender
had left before the one held, or of before the member was forgotten:

* no member's epoch and number is accepted as news twice;
* and once a goodbye has been accepted, a beat its sender had sent before it is no
  news and changes nothing, so it does not bring the member back. -/
theorem beats_news_once (starts : Starts) (me : MemberId) (deliveries : List Delivery)
    (hok : Along World.step starts.InOrder (World.start me) deliveries) :
    let world := exec World.step (World.start me) deliveries
    (world.accepted.map fun beat => (beat.member, beat.epoch, beat.seq)).Nodup ∧
    ∀ goodbye ∈ world.accepted, goodbye.leaving = true →
      ∀ (beat : Heartbeat) (now : ℕ) (isMember : MemberId → Bool),
        starts.InOrder world (.beat beat now isMember) → starts.SentBefore beat goodbye →
        world.online.heard beat now isMember = (false, world.online) := by
  intro world
  have h : Newest starts world :=
    Along.invariant (I := Newest starts) (fun world delivery h hok => h.step delivery hok)
      ⟨by simp [World.start], by simp [World.start]⟩ hok
  refine ⟨List.pairwise_map.mpr h.distinct, ?_⟩
  rintro goodbye hgoodbye - beat now isMember hinOrder ⟨hmember, hbefore⟩
  rcases heard_cases world.online beat now isMember with hsame | ⟨hother, hadmitted, hnews, -⟩
  · exact hsame
  · have hafter := h.lt_of_news hinOrder hother hadmitted hnews hgoodbye hmember.symm
    rw [← hmember] at hbefore
    exact absurd hafter hbefore.not_gt

/-- **Nobody is forgotten while the membership stays as it is**: of every sender of an
accepted beat one is held, so the order asked of a sender that was forgotten is asked of
none. -/
theorem held_of_accepted (me : MemberId) (deliveries : List Delivery)
    (hsame : ∀ isMember, Delivery.members isMember ∉ deliveries) :
    let world := exec World.step (World.start me) deliveries
    ∀ old ∈ world.accepted, old.member ∈ world.online.beats := by
  have hrun : Along World.step (fun _ delivery => ∀ isMember, delivery ≠ .members isMember)
      (World.start me) deliveries := by
    refine along_of_forall deliveries ?_
    rintro delivery hmem isMember rfl
    exact hsame isMember hmem
  refine Along.invariant (I := fun world : World => ∀ old ∈ world.accepted,
    old.member ∈ world.online.beats) ?_ (by simp [World.start]) hrun
  intro world delivery h hok old hold
  cases delivery with
  | beat beat now isMember =>
    rw [World.step] at hold ⊢
    rcases heard_cases world.online beat now isMember with hsame | ⟨-, -, -, until?, heq⟩
    · rw [hsame] at hold ⊢
      exact h old hold
    · rw [heq] at hold ⊢
      rw [Std.ExtTreeMap.mem_insert]
      rcases List.mem_append.mp hold with hbefore | hnew
      · exact Or.inr (h old hbefore)
      · obtain rfl := List.mem_singleton.mp hnew
        exact Or.inl Std.ReflCmp.compare_self
  | expire now => exact Std.ExtTreeMap.mem_map.mpr (h old hold)
  | members isMember => exact absurd rfl (hok isMember)

/-- **Whom the membership has left out once is not remembered**: whatever it says when
it is admitted again is news, a beat from before its goodbye too. -/
theorem heard_of_forgotten (online : Online) (beat : Heartbeat) (now : ℕ)
    {before after : MemberId → Bool} (hother : beat.member ≠ online.me)
    (hforgotten : before beat.member = false) (hadmitted : after beat.member = true) :
    ((online.retainMembers before).heard beat now after).1 = true := by
  have hnone : (online.retainMembers before).beats[beat.member]? = none := by
    rw [retainMembers, Std.ExtTreeMap.getElem?_filter']
    cases online.beats[beat.member]? <;> simp [hforgotten]
  have hnot : ¬(beat.member = (online.retainMembers before).me ∨ !after beat.member) := by
    simp [retainMembers, hother, hadmitted]
  rw [heard, if_neg hnot, hnone]
  rfl

/-! ## A goodbye, and a beat from before -/

/-- Bob's beat of an epoch and a number, every ten seconds. -/
def beatOf (epoch seq : ℕ) (leaving : Bool) : Heartbeat where
  address := ⟨bob, default, 0, ⟨0⟩⟩
  epoch := epoch
  seq := seq
  intervalSecs := 10
  holdings := ⟨0, none, [], []⟩
  leaving := leaving

def deliver (epoch seq : ℕ) (leaving : Bool) : Delivery := .beat (beatOf epoch seq leaving) 0 fun _ => true

/-- Bob drew epoch 7 at its first start, and epoch 4 at its second. -/
def bobsStarts : Starts where
  number _ epoch := if epoch = 7 then 0 else if epoch = 0 then 7 else epoch
  injective := by
    intro member a b h
    dsimp only at h
    split_ifs at h <;> omega

/-- Two beats and a goodbye of the first epoch, out of order and repeated. -/
def firstEpoch : List Delivery :=
  [deliver 7 2 false, deliver 7 1 false, deliver 7 3 true, .expire 5, deliver 7 3 true]

/-- The beat from before the goodbye is no news. -/
theorem beats_news_once_goodbye :
    (exec World.step (World.start alice) firstEpoch).accepted =
        [beatOf 7 2 false, beatOf 7 3 true] ∧
      ((exec World.step (World.start alice) firstEpoch).accepted.map
        fun beat => (beat.member, beat.epoch, beat.seq)).Nodup ∧
      ((exec World.step (World.start alice) firstEpoch).online.heard (beatOf 7 1 false) 9
        fun _ => true).1 = false := by
  have h := beats_news_once bobsStarts alice firstEpoch (by decide +kernel)
  refine ⟨by decide +kernel, h.1, ?_⟩
  rw [h.2 (beatOf 7 3 true) (by decide +kernel) rfl (beatOf 7 1 false) 9 (fun _ => true)
    (by decide +kernel) ⟨rfl, by decide +kernel⟩]

/-- Bob beats in epoch 7, starts again and says goodbye in epoch 4; then the beat
of epoch 7 is delivered once more. -/
def acrossEpochs : List Delivery := [deliver 7 1 false, deliver 4 1 true, deliver 7 1 false]

/-- It is news a second time, and brings bob back after the goodbye. -/
theorem old_epoch_comes_back :
    let world := exec World.step (World.start alice) acrossEpochs
    world.accepted = [beatOf 7 1 false, beatOf 4 1 true, beatOf 7 1 false] ∧
      bobsStarts.SentBefore (beatOf 7 1 false) (beatOf 4 1 true) ∧
      (exec World.step (World.start alice) (acrossEpochs.take 2)).online.isOnline bob = false ∧
      world.online.isOnline bob = true := by
  refine ⟨by decide +kernel, ⟨rfl, by decide +kernel⟩, by decide +kernel, by decide +kernel⟩

/-- Bob says goodbye, is left out and admitted again, and his first beat is delivered
once more. -/
example : (exec World.step (World.start alice)
    [deliver 7 1 false, deliver 7 2 true, .members fun member => member ≠ bob,
      deliver 7 1 false]).online.isOnline bob = true := by decide +kernel

end Online

end Distlib
