import Distlib.Sync.Online

/-!
# The loop that beats

A node beats, waits about an interval, and beats again. The wait is cut short when a
neighbour comes up, when the node says it is somewhere else, and when what it holds changes;
the last no sooner than `CHANGE_FLOOR` after the beat before, and never past the beat that
is due. A turn of the loop in which what is held could not be stated says nothing, and
neither does one before the node knows where it is.

`Beating.next` is one turn, given what the turn meets with: how many members the group has,
what wakes it, how long each step of it took. A `Beating.Run` is the loop running on. Of it:

* `stays_online`: who hears a beat in time out of every two counts the member online,
  from the first on, at every moment. It is the beat after the lost one that must come no
  later than what the receiver was told: when the group grows past a multiple of fifty, and
  the interval with it, the beat that says so is the one that must not be lost.
* `beats_are_few`: a burst of changes is one beat. Only what the floor does not hold back
  makes beats of its own.
* `goodbye_is_final`: wherever in its loop a node stops, its goodbye counts past every beat
  it has said, so none of those, heard late, brings it back.

The draw of the wait is within a tenth of the interval, and no more is asked of it.
-/

namespace Distlib

open GuardedRun

/-- The least time between a beat and one a change to the held set prompts. -/
def CHANGE_FLOOR : ℕ := 10 * 1000000000

/-- What ended a wait, and after how long. -/
inductive Beating.Wake : Type where
  | due
  /-- a neighbour came up, or the node says it is somewhere else -/
  | prompted (after : ℕ)
  /-- what the node holds changed -/
  | changed (after : ℕ)

/-- What one turn of the loop meets with. -/
structure Beating.Turn where
  members : ℕ
  /-- where the node says it is, once consensus has said so -/
  address : Option SignedAddress
  /-- what the node holds, unless it could not be stated -/
  stated : Option Holdings
  /-- how long stating it took -/
  stating : ℕ
  /-- how long it took to hand the beat over to be sent -/
  saying : ℕ
  /-- the interval, give or take up to a tenth -/
  wait : ℕ
  wake : Beating.Wake
  /-- how long after it was woken the loop went on -/
  lag : ℕ

/-- The loop between two turns. -/
structure Beating where
  now : ℕ
  seq : ℕ
  lastBeat : ℕ
  /-- the last beat sent, for a goodbye to follow -/
  said : Option Heartbeat

namespace Beating

def start (now : ℕ) : Beating := ⟨now, 0, now, none⟩

section Turn

variable (interval epoch : ℕ) (beating : Beating) (turn : Turn)

/-- The beat of a turn, if it has one. -/
def beat? : Option Heartbeat :=
  match turn.address, turn.stated with
  | some address, some holdings =>
    some ⟨address, epoch, beating.seq + 1, wholeSeconds (stretch interval turn.members), holdings,
      false⟩
  | _, _ => none

/-- When the beat is made, or would have been. -/
def statedAt : ℕ := if turn.address.isSome then beating.now + turn.stating else beating.now

/-- A turn up to its wait. The beat is recorded before it is sent. -/
def speak : Beating :=
  match beating.beat? interval epoch turn with
  | some beat =>
    let now := beating.statedAt turn + turn.saying
    ⟨now, beating.seq + 1, now, some beat⟩
  | none => { beating with now := beating.statedAt turn }

/-- When a wait that would end at `due` ends. -/
def wokenAt (due : ℕ) : Wake → ℕ
  | .due => due
  | .prompted after => min (beating.now + after) due
  | .changed after => max (min (beating.now + after) due) (min (beating.lastBeat + CHANGE_FLOOR) due)

/-- One turn of the loop. -/
def next : Beating :=
  let spoken := beating.speak interval epoch turn
  { spoken with now := spoken.wokenAt (spoken.now + turn.wait) turn.wake + turn.lag }

/-- What a node that stops says last, if it has ever said anything. -/
def goodbye? : Option Heartbeat :=
  beating.said.map fun beat => { beat with seq := beat.seq + 1, leaving := true }

end Turn

/-! ## One turn -/

variable {interval epoch : ℕ} {beating : Beating} {turn : Turn} {beat : Heartbeat}

/-- What a beat says of the node is what the turn met with. -/
theorem beat?_eq_some (h : beating.beat? interval epoch turn = some beat) :
    beat.address ∈ turn.address ∧ beat.epoch = epoch ∧ beat.seq = beating.seq + 1 ∧
      beat.intervalSecs = wholeSeconds (stretch interval turn.members) ∧ beat.leaving = false := by
  rw [beat?] at h
  split at h
  · rename_i address holdings haddress hstated
    obtain rfl := Option.some.inj h
    exact ⟨haddress, rfl, rfl, rfl, rfl⟩
  · exact absurd h (Option.some_ne_none _).symm

theorem speak_of_some (h : beating.beat? interval epoch turn = some beat) :
    beating.speak interval epoch turn =
      ⟨beating.statedAt turn + turn.saying, beating.seq + 1, beating.statedAt turn + turn.saying,
        some beat⟩ := by
  rw [speak, h]

theorem speak_of_none (h : beating.beat? interval epoch turn = none) :
    beating.speak interval epoch turn = { beating with now := beating.statedAt turn } := by
  rw [speak, h]

theorem le_statedAt (beating : Beating) (turn : Turn) : beating.now ≤ beating.statedAt turn := by
  rw [statedAt]
  split <;> omega

theorem statedAt_le (beating : Beating) (turn : Turn) :
    beating.statedAt turn ≤ beating.now + turn.stating := by
  rw [statedAt]
  split <;> omega

/-- A beat is said as soon as it is made, or after it took a while to be handed over. -/
theorem now_speak (interval epoch : ℕ) (beating : Beating) (turn : Turn) :
    beating.statedAt turn ≤ (beating.speak interval epoch turn).now ∧
      (beating.speak interval epoch turn).now ≤ beating.statedAt turn + turn.saying := by
  rcases hbeat : beating.beat? interval epoch turn with _ | beat
  · rw [speak_of_none hbeat]
    exact ⟨le_rfl, Nat.le_add_right _ _⟩
  · rw [speak_of_some hbeat]
    exact ⟨Nat.le_add_right _ _, le_rfl⟩

/-- Nothing puts a beat off past the one that is due. -/
theorem wokenAt_le_due (beating : Beating) (due : ℕ) (wake : Wake) :
    beating.wokenAt due wake ≤ due := by
  cases wake with
  | due => exact le_rfl
  | prompted after => exact min_le_right _ _
  | changed after => exact max_le (min_le_right _ _) (min_le_right _ _)

theorem le_wokenAt {due : ℕ} (h : beating.now ≤ due) (wake : Wake) :
    beating.now ≤ beating.wokenAt due wake := by
  cases wake with
  | due => exact h
  | prompted after => exact le_min (Nat.le_add_right _ _) h
  | changed after => exact le_max_of_le_left (le_min (Nat.le_add_right _ _) h)

@[simp] theorem seq_next :
    (beating.next interval epoch turn).seq = (beating.speak interval epoch turn).seq := rfl

@[simp] theorem said_next :
    (beating.next interval epoch turn).said = (beating.speak interval epoch turn).said := rfl

theorem now_next :
    (beating.next interval epoch turn).now = (beating.speak interval epoch turn).wokenAt
      ((beating.speak interval epoch turn).now + turn.wait) turn.wake + turn.lag := rfl

/-- How much later than its own beat a turn may end. -/
theorem now_next_le (interval epoch : ℕ) (beating : Beating) (turn : Turn) :
    (beating.next interval epoch turn).now ≤
      beating.statedAt turn + turn.saying + turn.wait + turn.lag := by
  have hspeak := (now_speak interval epoch beating turn).2
  have hwoken := wokenAt_le_due (beating.speak interval epoch turn)
    ((beating.speak interval epoch turn).now + turn.wait) turn.wake
  rw [now_next]
  omega

theorem statedAt_le_now_next (interval epoch : ℕ) (beating : Beating) (turn : Turn) :
    beating.statedAt turn ≤ (beating.next interval epoch turn).now := by
  have hspeak := (now_speak interval epoch beating turn).1
  have hwoken : (beating.speak interval epoch turn).now ≤
      (beating.speak interval epoch turn).wokenAt
        ((beating.speak interval epoch turn).now + turn.wait) turn.wake :=
    le_wokenAt (Nat.le_add_right _ _) turn.wake
  rw [now_next]
  omega

/-- A turn that nobody prompts comes no sooner than the floor after the last beat, or when
the next is due. -/
theorem wait_le_next (h : beating.beat? interval epoch turn = some beat)
    (hwake : ∀ after, turn.wake ≠ .prompted after) :
    beating.now + min CHANGE_FLOOR turn.wait ≤ (beating.next interval epoch turn).now := by
  have hstated := le_statedAt beating turn
  rw [now_next, speak_of_some h]
  cases hturn : turn.wake with
  | due => simp only [wokenAt]; omega
  | prompted after => exact absurd hturn (hwake after)
  | changed after => simp only [wokenAt]; omega

/-! ## The loop running on -/

/-- A loop that is not stopped. -/
structure Run where
  me : MemberId
  interval : ℕ
  epoch : ℕ
  started : ℕ
  turns : ℕ → Turn
  /-- a node says where it is itself -/
  own : ∀ k, ∀ address ∈ (turns k).address, address.member = me
  /-- the setting is in seconds -/
  whole : 1000000 ∣ interval
  drawn : ∀ k, 9 * stretch interval (turns k).members ≤ 10 * (turns k).wait ∧
    10 * (turns k).wait ≤ 11 * stretch interval (turns k).members

namespace Run

variable (run : Run)

/-- The loop before its `k`th turn. -/
def before : ℕ → Beating
  | 0 => start run.started
  | k + 1 => (before k).next run.interval run.epoch (run.turns k)

/-- The beat of the `k`th turn, if it has one. -/
def beatAt (k : ℕ) : Option Heartbeat := (run.before k).beat? run.interval run.epoch (run.turns k)

def statedAt (k : ℕ) : ℕ := (run.before k).statedAt (run.turns k)

/-- The interval of the `k`th turn, as long as the group is then. -/
def intervalAt (k : ℕ) : ℕ := stretch run.interval (run.turns k).members

variable {run}

theorem seq_succ_of_some {k : ℕ} {beat : Heartbeat} (h : run.beatAt k = some beat) :
    (run.before (k + 1)).seq = beat.seq := by
  rw [before, seq_next, speak_of_some h, (beat?_eq_some h).2.2.1]

theorem seq_succ_of_none {k : ℕ} (h : run.beatAt k = none) :
    (run.before (k + 1)).seq = (run.before k).seq := by
  rw [before, seq_next, speak_of_none h]

theorem seq_le_succ (run : Run) (k : ℕ) : (run.before k).seq ≤ (run.before (k + 1)).seq := by
  rcases hbeat : run.beatAt k with _ | beat
  · exact (seq_succ_of_none hbeat).ge
  · rw [seq_succ_of_some hbeat, (beat?_eq_some hbeat).2.2.1]
    exact Nat.le_succ _

theorem seq_mono (run : Run) : Monotone fun k => (run.before k).seq :=
  monotone_nat_of_le_succ run.seq_le_succ

/-- Each beat counts past those before it. -/
theorem seq_lt {j k : ℕ} {a b : Heartbeat} (ha : run.beatAt j = some a) (hb : run.beatAt k = some b)
    (h : j < k) : a.seq < b.seq := by
  have hmono : (run.before (j + 1)).seq ≤ (run.before k).seq := run.seq_mono h
  rw [seq_succ_of_some ha] at hmono
  rw [(beat?_eq_some hb).2.2.1]
  omega

/-- Two beats are of turns in the order of their numbers. -/
theorem seq_le_iff {j k : ℕ} {a b : Heartbeat} (ha : run.beatAt j = some a)
    (hb : run.beatAt k = some b) : a.seq ≤ b.seq ↔ j ≤ k := by
  constructor
  · intro hseq
    by_contra hlt
    exact absurd (seq_lt hb ha (not_le.mp hlt)) hseq.not_gt
  · intro hle
    rcases hle.lt_or_eq with hlt | rfl
    · exact (seq_lt ha hb hlt).le
    · rw [Option.some.inj (ha.symm.trans hb)]

/-- A beat is of the node that says it. -/
theorem member_of_beatAt {k : ℕ} {beat : Heartbeat} (h : run.beatAt k = some beat) :
    beat.member = run.me :=
  run.own k _ (beat?_eq_some h).1

/-- What a beat says of its interval covers three of them. -/
theorem three_intervals_le_ttl {k : ℕ} {beat : Heartbeat} (h : run.beatAt k = some beat) :
    3 * run.intervalAt k ≤ ttl beat.intervalSecs := by
  have hmax : run.intervalAt k ≤ MAX_INTERVAL := stretch_le _ _
  have hstated := le_wholeSeconds (whole_ms_stretch run.whole (run.turns k).members) hmax
  rw [(beat?_eq_some h).2.2.2.1, ttl]
  refine le_max_of_le_right (le_min ?_ (Nat.mul_le_mul_left 3 hmax))
  rw [intervalAt]
  omega

/-- From one beat to the next it is an interval and a tenth, and what the turn itself
takes. -/
theorem statedAt_succ_le (run : Run) (k : ℕ) :
    10 * run.statedAt (k + 1) ≤ 10 * run.statedAt k + 11 * run.intervalAt k +
      10 * ((run.turns k).saying + (run.turns k).lag + (run.turns (k + 1)).stating) := by
  have hnext := now_next_le run.interval run.epoch (run.before k) (run.turns k)
  have hstated := statedAt_le (run.before (k + 1)) (run.turns (k + 1))
  have hdrawn := (run.drawn k).2
  rw [statedAt, statedAt, intervalAt]
  rw [before] at hstated ⊢
  omega

end Run

end Beating

/-! ## Who hears it -/

/-- What happens to a node that listens. -/
inductive Listener.Event : Type where
  | hears (beat : Heartbeat) (now : ℕ)
  | expires (now : ℕ)
  | members (isMember : MemberId → Bool)

/-- A node that listens, and every beat that has reached it. -/
structure Listener where
  online : Online
  isMember : MemberId → Bool
  reached : List Heartbeat

namespace Listener

def start (me : MemberId) (isMember : MemberId → Bool) : Listener := ⟨.new me, isMember, []⟩

/-- One turn of the listening loop. -/
def step (listener : Listener) : Event → Listener
  | .hears beat now =>
    { listener with
      online := (listener.online.heard beat now listener.isMember).2
      reached := beat :: listener.reached }
  | .expires now => { listener with online := listener.online.expire now }
  | .members isMember =>
    { listener with online := listener.online.retainMembers isMember, isMember }

end Listener

namespace Online

variable {online : Online} {beat : Heartbeat} {now : ℕ} {isMember : MemberId → Bool}
  {member : MemberId}

@[simp] theorem me_heard : (online.heard beat now isMember).2.me = online.me := by
  rcases heard_cases online beat now isMember with hsame | ⟨-, -, -, until?, hnews⟩
  · rw [hsame]
  · rw [hnews]

@[simp] theorem me_expire : (online.expire now).me = online.me := rfl

@[simp] theorem me_retainMembers : (online.retainMembers isMember).me = online.me := rfl

/-- A beat says nothing of anybody but its sender. -/
theorem held_heard_of_ne (h : beat.member ≠ member) :
    (online.heard beat now isMember).2.beats[member]? = online.beats[member]? := by
  rcases heard_cases online beat now isMember with hsame | ⟨-, -, -, until?, hnews⟩
  · rw [hsame]
  · rw [hnews]
    simp [Std.ExtTreeMap.getElem?_insert, h]

variable (now) in
/-- What is held of the sender of a beat that is not refused for who sent it. -/
theorem held_heard (hother : beat.member ≠ online.me) (hadmitted : isMember beat.member = true) :
    (online.heard beat now isMember).2.beats[beat.member]? =
      if online.beats[beat.member]?.any fun held => held.epoch = beat.epoch ∧ beat.seq ≤ held.seq
      then online.beats[beat.member]?
      else some ⟨beat.epoch, beat.seq,
        if beat.leaving then none else some (now + ttl beat.intervalSecs)⟩ := by
  rw [heard, if_neg (by simp [hother, hadmitted])]
  split
  · rfl
  · exact Std.ExtTreeMap.getElem?_insert_self

theorem held_expire : (online.expire now).beats[member]? = online.beats[member]?.map fun heard =>
    if heard.until?.any fun deadline => deadline ≤ now then { heard with until? := none }
    else heard := by
  rw [expire, Std.ExtTreeMap.getElem?_map]

theorem held_retainMembers (h : isMember member = true) :
    (online.retainMembers isMember).beats[member]? = online.beats[member]? := by
  rw [retainMembers, Std.ExtTreeMap.getElem?_filter']
  cases online.beats[member]? <;> simp [h]

end Online

/-! ## A member stays online -/

namespace Beating.Run

variable (run : Run) (kept : ℕ → Prop) (delay : ℕ)

/-- The beat of a turn, or of a later one, is among those that got there. -/
def Reached (k : ℕ) (listener : Listener) : Prop := ∃ beat ∈ run.beatAt k, beat ∈ listener.reached

/-- **What the network and the group do while a member beats**: nobody beats in its name, it
stays a member, and a beat that is `kept` gets there within `delay`. -/
def Carries (listener : Listener) : Listener.Event → Prop
  | .hears beat now =>
    beat.member = run.me → ∃ k, run.beatAt k = some beat ∧ run.statedAt k ≤ now
  | .expires now => ∀ k, kept k → run.statedAt k + delay ≤ now → run.Reached k listener
  | .members isMember => isMember run.me = true

/-- Of every two beats one is kept, and it is the first unless the interval is no longer in
the second. -/
structure Often : Prop where
  beats : ∀ k, kept k → (run.beatAt k).isSome
  next : ∀ k, kept k → kept (k + 1) ∨ kept (k + 2) ∧ run.intervalAt (k + 1) ≤ run.intervalAt k

variable {run kept delay}

/-- A lost beat is followed by one that is not. -/
theorem Often.after (h : run.Often kept) {k m : ℕ} (hkept : kept k) (hle : k ≤ m) :
    kept (m + 1) ∨ kept (m + 2) ∧ run.intervalAt (m + 1) ≤ run.intervalAt m := by
  have hhere : kept m ∨ kept (m + 1) := by
    induction m, hle using Nat.le_induction with
    | base => exact Or.inl hkept
    | succ m _ ih =>
      rcases ih with hm | hsucc
      · exact (h.next m hm).imp_right And.left
      · exact Or.inl hsucc
  rcases hhere with hm | hsucc
  · exact h.next m hm
  · exact Or.inl hsucc

/-- **The next beat that is kept arrives before the last one runs out.** Two waits with all
their jitter leave four fifths of the third interval for everything else. -/
theorem next_in_time (h : run.Often kept) {overhead : ℕ}
    (hpunctual : ∀ k, (run.turns k).saying + (run.turns k).lag + (run.turns (k + 1)).stating ≤
      overhead)
    (hslack : ∀ k, 5 * (2 * overhead + delay) < 4 * run.intervalAt k) {k m : ℕ} (hkept : kept k)
    (hle : k ≤ m) :
    ∃ next > m, kept next ∧ run.statedAt next + delay < run.statedAt m + 3 * run.intervalAt m := by
  have hone := run.statedAt_succ_le m
  have htwo : 10 * run.statedAt (m + 2) ≤ _ := run.statedAt_succ_le (m + 1)
  have hfirst := hpunctual m
  have hsecond := hpunctual (m + 1)
  have hroom := hslack m
  rcases h.after hkept hle with hnext | ⟨hnext, hshorter⟩
  · exact ⟨m + 1, Nat.lt_succ_self m, hnext, by omega⟩
  · exact ⟨m + 2, by omega, hnext, by omega⟩

/-- The newest of what got there is what is held, with time enough, or it was the last of a
run of beats of which none is kept. -/
structure Holds (run : Run) (kept : ℕ → Prop) (listener : Listener) (m : ℕ) (beat : Heartbeat)
    (until? : Option ℕ) : Prop where
  said : run.beatAt m = some beat
  newest : ∀ k, run.Reached k listener → k ≤ m
  reached : beat ∈ listener.reached
  held : listener.online.beats[run.me]? = some ⟨run.epoch, beat.seq, until?⟩
  enough : ∀ deadline ∈ until?, run.statedAt m + 3 * run.intervalAt m ≤ deadline
  online : until? = none → ∀ k ≤ m, ¬ kept k

/-- What a listener knows of the member: nothing yet, or the newest of what got there. -/
structure Follows (run : Run) (kept : ℕ → Prop) (listener : Listener) : Prop where
  other : run.me ≠ listener.online.me
  admitted : listener.isMember run.me = true
  knows : (∀ k, ¬ run.Reached k listener) ∧ listener.online.beats[run.me]? = none ∨
    ∃ m beat until?, run.Holds kept listener m beat until?

/-- A beat of the member's is of one turn. -/
theorem reached_hears {listener : Listener} {k j : ℕ} {beat : Heartbeat} {now : ℕ}
    (hsaid : run.beatAt k = some beat) :
    run.Reached j (listener.step (.hears beat now)) ↔ run.Reached j listener ∨ j = k := by
  constructor
  · rintro ⟨other, hother, hmem⟩
    rcases List.mem_cons.mp hmem with rfl | hbefore
    · right
      exact le_antisymm ((seq_le_iff hother hsaid).mp le_rfl) ((seq_le_iff hsaid hother).mp le_rfl)
    · exact Or.inl ⟨other, hother, hbefore⟩
  · rintro (⟨other, hother, hmem⟩ | rfl)
    · exact ⟨other, hother, List.mem_cons_of_mem _ hmem⟩
    · exact ⟨beat, hsaid, List.mem_cons_self⟩

/-- A beat of somebody else's changes nothing of what is known. -/
theorem Follows.other_hears {listener : Listener} (h : run.Follows kept listener)
    {beat : Heartbeat} {now : ℕ} (hne : beat.member ≠ run.me) :
    run.Follows kept (listener.step (.hears beat now)) := by
  have hheld : (listener.step (.hears beat now)).online.beats[run.me]? =
      listener.online.beats[run.me]? := Online.held_heard_of_ne hne
  have hreached : ∀ k, run.Reached k (listener.step (.hears beat now)) → run.Reached k listener := by
    rintro k ⟨said, hsaid, hmem⟩
    refine ⟨said, hsaid, (List.mem_cons.mp hmem).resolve_left ?_⟩
    rintro rfl
    exact hne (member_of_beatAt hsaid)
  refine ⟨by simpa [Listener.step] using h.other, h.admitted, ?_⟩
  rcases h.knows with ⟨hnone, hnothing⟩ | ⟨m, last, until?, hholds⟩
  · exact Or.inl ⟨fun k hk => hnone k (hreached k hk), hheld.trans hnothing⟩
  · exact Or.inr ⟨m, last, until?, hholds.said, fun k hk => hholds.newest k (hreached k hk),
      List.mem_cons_of_mem _ hholds.reached, hheld.trans hholds.held, hholds.enough, hholds.online⟩

/-- A beat that is news is what is held from now on. -/
theorem holds_of_news {listener : Listener} {k : ℕ} {beat : Heartbeat} {now : ℕ}
    (hsaid : run.beatAt k = some beat) (hnow : run.statedAt k ≤ now)
    (hnewest : ∀ j, run.Reached j listener → j ≤ k)
    (hheld : (listener.step (.hears beat now)).online.beats[run.me]? =
      some ⟨run.epoch, beat.seq, some (now + ttl beat.intervalSecs)⟩) :
    run.Holds kept (listener.step (.hears beat now)) k beat (some (now + ttl beat.intervalSecs)) where
  said := hsaid
  newest j hj := by
    rcases (reached_hears hsaid).mp hj with hbefore | rfl
    · exact hnewest j hbefore
    · exact le_rfl
  reached := List.mem_cons_self
  held := hheld
  enough deadline hdeadline := by
    have hthree := three_intervals_le_ttl hsaid
    obtain rfl := Option.some.inj hdeadline
    omega
  online hnone := absurd hnone (Option.some_ne_none _)

theorem Follows.hears {listener : Listener} (h : run.Follows kept listener) {beat : Heartbeat}
    {now : ℕ} (hok : run.Carries kept delay listener (.hears beat now)) :
    run.Follows kept (listener.step (.hears beat now)) := by
  by_cases hmember : beat.member = run.me
  · obtain ⟨k, hsaid, hnow⟩ := hok hmember
    obtain ⟨-, hepoch, -, -, hstays⟩ := beat?_eq_some hsaid
    have hheld := Online.held_heard now (hmember ▸ h.other)
      (hmember ▸ h.admitted : listener.isMember beat.member = true)
    rw [hmember, hepoch, hstays] at hheld
    refine ⟨by simpa [Listener.step] using h.other, h.admitted, Or.inr ?_⟩
    rcases h.knows with ⟨hnone, hnothing⟩ | ⟨m, last, until?, hholds⟩
    · rw [hnothing] at hheld
      exact ⟨k, beat, _, holds_of_news hsaid hnow (fun j hj => absurd hj (hnone j)) hheld⟩
    · rw [hholds.held] at hheld
      by_cases hle : k ≤ m
      · -- it is no news, and what is held stays
        have hseq : beat.seq ≤ last.seq := (seq_le_iff hsaid hholds.said).mpr hle
        refine ⟨m, last, until?, hholds.said, ?_, List.mem_cons_of_mem _ hholds.reached, ?_,
          hholds.enough, hholds.online⟩
        · intro j hj
          rcases (reached_hears hsaid).mp hj with hbefore | rfl
          · exact hholds.newest j hbefore
          · exact hle
        · exact hheld.trans (if_pos (by simpa using hseq))
      · have hseq : last.seq < beat.seq := seq_lt hholds.said hsaid (not_le.mp hle)
        refine ⟨k, beat, _, holds_of_news hsaid hnow ?_ ?_⟩
        · intro j hj
          exact (hholds.newest j hj).trans (not_le.mp hle).le
        · exact hheld.trans (if_neg (by simpa using hseq))
  · exact h.other_hears hmember

/-- Time that passes takes a member offline only if none of its beats was to be kept. -/
theorem Follows.expires {listener : Listener} (h : run.Follows kept listener)
    (hnext : ∀ k m, kept k → k ≤ m → ∃ next > m, kept next ∧
      run.statedAt next + delay < run.statedAt m + 3 * run.intervalAt m)
    {now : ℕ} (hok : run.Carries kept delay listener (.expires now)) :
    run.Follows kept (listener.step (.expires now)) := by
  refine ⟨h.other, h.admitted, ?_⟩
  have hheld : (listener.step (.expires now)).online.beats[run.me]? = _ := Online.held_expire
  rcases h.knows with ⟨hnone, hnothing⟩ | ⟨m, last, until?, hholds⟩
  · rw [hnothing] at hheld
    exact Or.inl ⟨hnone, hheld⟩
  · right
    rw [hholds.held, Option.map_some] at hheld
    rcases until? with _ | deadline
    · exact ⟨m, last, none, hholds.said, hholds.newest, hholds.reached, hheld, hholds.enough,
        hholds.online⟩
    · by_cases hover : deadline ≤ now
      · rw [if_pos (by simpa using hover)] at hheld
        refine ⟨m, last, none, hholds.said, hholds.newest, hholds.reached, hheld, by simp, ?_⟩
        -- a beat that was to be kept has one after it, and it would have been here by now
        intro _ k hle hkept
        obtain ⟨next, hlater, hnextKept, hsoon⟩ := hnext k m hkept hle
        have henough := hholds.enough deadline rfl
        have hreached := hok next hnextKept (by omega)
        exact absurd (hholds.newest next hreached) (not_le.mpr hlater)
      · rw [if_neg (by simpa using hover)] at hheld
        exact ⟨m, last, some deadline, hholds.said, hholds.newest, hholds.reached, hheld,
          hholds.enough, hholds.online⟩

theorem Follows.members {listener : Listener} (h : run.Follows kept listener)
    {isMember : MemberId → Bool} (hok : run.Carries kept delay listener (.members isMember)) :
    run.Follows kept (listener.step (.members isMember)) := by
  have hheld : (listener.step (.members isMember)).online.beats[run.me]? =
      listener.online.beats[run.me]? := Online.held_retainMembers hok
  refine ⟨h.other, hok, ?_⟩
  rcases h.knows with ⟨hnone, hnothing⟩ | ⟨m, last, until?, hholds⟩
  · exact Or.inl ⟨hnone, hheld.trans hnothing⟩
  · exact Or.inr ⟨m, last, until?, hholds.said, hholds.newest, hholds.reached,
      hheld.trans hholds.held, hholds.enough, hholds.online⟩

/-- **A member that beats stays online.** Whoever listens counts it online from the first
beat on that gets there in time, at every moment, if: out of every two beats one is kept,
and it is the first where the interval grows from one to the other; every beat that is kept
is heard within `delay`; and what a turn takes besides its wait, twice, and the delay are
less than four fifths of every interval. Beats may arrive twice and in any order, those that
are not kept too, and anything may be heard of others. What is heard in its name is of this
run, and it stays admitted. -/
theorem stays_online (run : Run) {kept : ℕ → Prop} {delay overhead : ℕ} (hoften : run.Often kept)
    (hpunctual : ∀ k, (run.turns k).saying + (run.turns k).lag + (run.turns (k + 1)).stating ≤
      overhead)
    (hslack : ∀ k, 5 * (2 * overhead + delay) < 4 * run.intervalAt k)
    {me : MemberId} (hother : run.me ≠ me) {isMember : MemberId → Bool}
    (hadmitted : isMember run.me = true) (events : List Listener.Event)
    (hcarries : Along Listener.step (run.Carries kept delay) (.start me isMember) events) :
    let listener := exec Listener.step (.start me isMember) events
    ∀ k, kept k → run.Reached k listener → listener.online.isOnline run.me = true := by
  intro listener k hkept hreached
  have hfollows : run.Follows kept listener := by
    refine Along.invariant (I := run.Follows kept) ?_ ⟨hother, hadmitted, Or.inl ⟨?_, ?_⟩⟩ hcarries
    · intro listener event h hok
      cases event with
      | hears beat now => exact h.hears hok
      | expires now =>
        exact h.expires (fun k m hkept hle => next_in_time hoften hpunctual hslack hkept hle) hok
      | members isMember => exact h.members hok
    · rintro k ⟨beat, -, hmem⟩
      exact absurd hmem (by simp [Listener.start])
    · simp [Listener.start, Online.new]
  rcases hfollows.knows with ⟨hnone, -⟩ | ⟨m, last, until?, hholds⟩
  · exact absurd hreached (hnone k)
  · rw [Online.isOnline, hholds.held]
    rcases until? with _ | deadline
    · exact absurd hkept (hholds.online rfl k (hholds.newest k hreached))
    · rfl

/-- Two lost beats in a row can be too many: three waits with all their jitter outlast three
intervals. -/
example : ttl (wholeSeconds (stretch 10000000000 1)) < 3 * (11 * stretch 10000000000 1 / 10) := by
  decide

/-! ### Every second beat lost -/

/-- Bob beats every ten seconds. -/
def everyTen : Run where
  me := bob
  interval := 10000000000
  epoch := 7
  started := 0
  turns _ := ⟨1, some ⟨bob, default, 0, ⟨0⟩⟩, some ⟨0, none, [], []⟩, 0, 0, 10000000000, .due, 0⟩
  own _ _ haddress := by rw [← Option.some.inj haddress]
  whole := ⟨10000, rfl⟩
  drawn _ := by decide

theorem beat?_everyTen (beating : Beating) (k : ℕ) :
    beating.beat? everyTen.interval everyTen.epoch (everyTen.turns k) =
      some (Online.beatOf 7 (beating.seq + 1) false) := by
  have hinterval : wholeSeconds (stretch 10000000000 1) = 10 := by decide
  simp [beat?, everyTen, hinterval, Online.beatOf]

theorem statedAt_turn_everyTen (beating : Beating) (k : ℕ) :
    beating.statedAt (everyTen.turns k) = beating.now := rfl

theorem now_next_everyTen (beating : Beating) (k : ℕ) :
    (beating.next everyTen.interval everyTen.epoch (everyTen.turns k)).now =
      beating.now + 10000000000 := by
  rw [now_next, speak_of_some (beat?_everyTen _ k), statedAt_turn_everyTen]
  simp [everyTen, wokenAt]

theorem before_everyTen (k : ℕ) :
    (everyTen.before k).now = k * 10000000000 ∧ (everyTen.before k).seq = k := by
  induction k with
  | zero => exact ⟨rfl, rfl⟩
  | succ k ih =>
    rw [before, now_next_everyTen, seq_next, speak_of_some (beat?_everyTen _ k), ih.1, ih.2]
    exact ⟨by omega, rfl⟩

theorem statedAt_everyTen (k : ℕ) : everyTen.statedAt k = k * 10000000000 := by
  rw [statedAt, statedAt_turn_everyTen, (before_everyTen k).1]

theorem beatAt_everyTen (k : ℕ) : everyTen.beatAt k = some (Online.beatOf 7 (k + 1) false) := by
  rw [beatAt, beat?_everyTen, (before_everyTen k).2]

/-- The first beat and the third are heard, and time passes. -/
def everySecond : List Listener.Event :=
  [.hears (Online.beatOf 7 1 false) 0, .expires 19000000000,
    .hears (Online.beatOf 7 3 false) 20500000000, .expires 40000000000]

theorem slack_everyTen : 5 * (2 * 0 + 1000000000) < 4 * stretch 10000000000 1 := by decide

theorem often_everyTen : everyTen.Often Even where
  beats k _ := by rw [beatAt_everyTen]; rfl
  next k hk := Or.inr ⟨hk.add (by decide), le_rfl⟩

theorem carries_everySecond :
    Along Listener.step (everyTen.Carries Even 1000000000) (.start alice fun _ => true)
      everySecond := by
  refine ⟨fun _ => ⟨0, beatAt_everyTen 0, le_rfl⟩, ?_,
    fun _ => ⟨2, beatAt_everyTen 2, by rw [statedAt_everyTen]; decide⟩, ?_, trivial⟩
  · intro k heven hsoon
    rw [statedAt_everyTen] at hsoon
    obtain ⟨half, rfl⟩ := heven
    obtain rfl : half = 0 := by omega
    exact ⟨_, beatAt_everyTen 0, List.mem_cons_self⟩
  · intro k heven hsoon
    rw [statedAt_everyTen] at hsoon
    obtain ⟨half, rfl⟩ := heven
    obtain rfl | rfl : half = 0 ∨ half = 1 := by omega
    · exact ⟨_, beatAt_everyTen 0, List.mem_cons_of_mem _ List.mem_cons_self⟩
    · exact ⟨_, beatAt_everyTen 2, List.mem_cons_self⟩

/-- The second beat is lost, and bob is online when the third has long been heard. -/
theorem stays_online_everySecond :
    (exec Listener.step (.start alice fun _ => true) everySecond).online.isOnline bob = true :=
  stays_online everyTen often_everyTen (fun _ => le_rfl) (fun _ => slack_everyTen) (by decide) rfl
    everySecond carries_everySecond 2 (by decide)
    ⟨_, beatAt_everyTen 2, List.mem_cons_self⟩

/-! ## Few beats -/

/-- Whether something else than the clock or the held set ended a wait. -/
def isPrompted : Wake → Bool
  | .prompted _ => true
  | _ => false

/-- How far apart beats are that nothing prompts. -/
def spacing (run : Run) : ℕ := min CHANGE_FLOOR (9 * stretch run.interval 0 / 10)

/-- How many beats there are in `n` turns from the `k`th on. -/
def beats (run : Run) (k n : ℕ) : ℕ := (List.range' k n).countP fun j => (run.beatAt j).isSome

/-- How many of these turns are prompted. -/
def prompts (run : Run) (k n : ℕ) : ℕ :=
  (List.range' k n).countP fun j => isPrompted (run.turns j).wake

theorem stretch_zero_le (interval members : ℕ) : stretch interval 0 ≤ stretch interval members := by
  rw [stretch, stretch]
  refine min_le_min_right _ (min_le_min_right _ (Nat.mul_le_mul_left _ ?_))
  exact min_le_min_right _ (max_le_max_right _ (by simp))

theorem spacing_le_wait (run : Run) (k : ℕ) :
    run.spacing ≤ min CHANGE_FLOOR (run.turns k).wait := by
  have hdrawn := (run.drawn k).1
  have hstretch := stretch_zero_le run.interval (run.turns k).members
  refine le_min (min_le_left _ _) ((min_le_right _ _).trans ?_)
  omega

/-- A turn whose beat nothing prompts takes as long as beats are apart. -/
theorem spacing_le (run : Run) (k : ℕ) :
    (run.before k).now + run.beats k 1 * run.spacing ≤
      (run.before (k + 1)).now + run.prompts k 1 * run.spacing := by
  have hlater : (run.before k).now ≤ (run.before (k + 1)).now :=
    (le_statedAt _ (run.turns k)).trans (statedAt_le_now_next _ _ _ _)
  rw [beats, prompts, List.range'_one, List.countP_singleton, List.countP_singleton]
  rcases hbeat : run.beatAt k with _ | beat
  · simp
    omega
  · by_cases hprompted : isPrompted (run.turns k).wake = true
    · simp [hprompted, hlater]
    · have hwait := wait_le_next hbeat fun after hwake => hprompted (by rw [hwake]; rfl)
      have hspacing := spacing_le_wait run k
      simp [hprompted, before]
      omega

/-- **A burst of changes is one beat.** In any stretch of turns, what is not prompted by a
neighbour or a new address is beats at least ten seconds apart, or nine tenths of the
shortest interval where that is less, however often what the node holds changes. -/
theorem beats_are_few (run : Run) (k n : ℕ) :
    (run.before k).now + run.beats k n * run.spacing ≤
      (run.before (k + n)).now + run.prompts k n * run.spacing := by
  induction n with
  | zero => simp [beats, prompts]
  | succ n ih =>
    have hone := spacing_le run (k + n)
    have hbeats : run.beats k (n + 1) = run.beats k n + run.beats (k + n) 1 := by
      rw [beats, beats, beats, List.range'_1_concat, List.countP_append, List.range'_one]
    have hprompts : run.prompts k (n + 1) = run.prompts k n + run.prompts (k + n) 1 := by
      rw [prompts, prompts, prompts, List.range'_1_concat, List.countP_append, List.range'_one]
    rw [hbeats, hprompts, add_mul, add_mul, ← add_assoc k n 1]
    omega

/-! ## The last word -/

/-- What was said last, before the `k`th turn, is what the numbers have come to. -/
theorem said_before {k : ℕ} {beat : Heartbeat} (h : (run.before k).said = some beat) :
    beat.seq = (run.before k).seq ∧ beat.epoch = run.epoch ∧ beat.member = run.me := by
  induction k with
  | zero => exact absurd h (Option.some_ne_none beat).symm
  | succ k ih =>
    rcases hbeat : run.beatAt k with _ | new
    · rw [before, said_next, speak_of_none hbeat] at h
      rw [seq_succ_of_none hbeat]
      exact ih h
    · rw [before, said_next, speak_of_some hbeat] at h
      obtain rfl := Option.some.inj h
      exact ⟨(seq_succ_of_some hbeat).symm, (beat?_eq_some hbeat).2.1, member_of_beatAt hbeat⟩

/-- What a goodbye is, and that it counts past every beat of the turns before it. -/
theorem goodbye_past {k : ℕ} {goodbye : Heartbeat} (h : (run.before k).goodbye? = some goodbye) :
    goodbye.leaving = true ∧ goodbye.epoch = run.epoch ∧ goodbye.member = run.me ∧
      ∀ j < k, ∀ beat ∈ run.beatAt j, beat.seq < goodbye.seq := by
  obtain ⟨last, hlast, rfl⟩ := Option.map_eq_some_iff.mp h
  obtain ⟨hseq, hepoch, hmember⟩ := said_before hlast
  refine ⟨rfl, hepoch, hmember, ?_⟩
  intro j hj beat hbeat
  have hmono : (run.before (j + 1)).seq ≤ (run.before k).seq := run.seq_mono hj
  rw [seq_succ_of_some hbeat, ← hseq] at hmono
  exact Nat.lt_succ_of_le hmono

/-- Nobody but the node beats in its name, and it stays a member. -/
def SaysAtMost (run : Run) (k : ℕ) (goodbye : Heartbeat) : Listener.Event → Prop
  | .hears beat _ =>
    beat.member = run.me → beat = goodbye ∨ ∃ j < k, run.beatAt j = some beat
  | .expires _ => True
  | .members isMember => isMember run.me = true

/-- A listener before the goodbye has got there, or after. -/
structure Ending (run : Run) (goodbye : Heartbeat) (listener : Listener) : Prop where
  other : run.me ≠ listener.online.me
  admitted : listener.isMember run.me = true
  held : goodbye ∉ listener.reached ∧ (∀ held ∈ listener.online.beats[run.me]?,
      held.epoch = run.epoch ∧ held.seq < goodbye.seq) ∨
    listener.online.beats[run.me]? = some ⟨run.epoch, goodbye.seq, none⟩

section Ending

variable {listener : Listener} {k : ℕ} {goodbye beat : Heartbeat} {now : ℕ}

/-- The goodbye is news, or what is held already. -/
theorem Ending.hears_goodbye (h : run.Ending goodbye listener) (hleaving : goodbye.leaving = true)
    (hepoch : goodbye.epoch = run.epoch) (hname : goodbye.member = run.me) :
    (listener.step (.hears goodbye now)).online.beats[run.me]? =
      some ⟨run.epoch, goodbye.seq, none⟩ := by
  have hheld := Online.held_heard now (hname ▸ h.other)
    (hname ▸ h.admitted : listener.isMember goodbye.member = true)
  rw [hname, hepoch, hleaving, if_pos rfl] at hheld
  rcases h.held with ⟨-, hbefore⟩ | hafter
  · refine hheld.trans (if_neg ?_)
    rcases hsome : listener.online.beats[run.me]? with _ | held
    · simp
    · simpa using fun _ => (hbefore held hsome).2
  · rw [hafter] at hheld
    exact hheld.trans (if_pos (by simp))

/-- A beat from before the goodbye is news only if that has not got there yet. -/
theorem Ending.hears_before (h : run.Ending goodbye listener) (hname : beat.member = run.me)
    (hepoch : beat.epoch = run.epoch) (hlt : beat.seq < goodbye.seq) :
    run.Ending goodbye (listener.step (.hears beat now)) := by
  have hheld : (listener.step (.hears beat now)).online.beats[run.me]? = _ :=
    hname ▸ Online.held_heard now (hname ▸ h.other)
      (hname ▸ h.admitted : listener.isMember beat.member = true)
  rw [hepoch] at hheld
  refine ⟨by simpa [Listener.step] using h.other, h.admitted, ?_⟩
  rcases h.held with ⟨hnot, hbefore⟩ | hafter
  · left
    refine ⟨?_, ?_⟩
    · intro hmem
      rcases List.mem_cons.mp hmem with rfl | hmem
      · exact absurd hlt (lt_irrefl _)
      · exact hnot hmem
    · intro held hmem
      rw [hheld] at hmem
      split at hmem
      · exact hbefore held hmem
      · obtain rfl := Option.some.inj hmem
        exact ⟨rfl, hlt⟩
  · right
    rw [hafter] at hheld
    exact hheld.trans (if_pos (by simpa using hlt.le))

theorem Ending.hears_other (h : run.Ending goodbye listener) (hgoodbye : goodbye.member = run.me)
    (hname : beat.member ≠ run.me) : run.Ending goodbye (listener.step (.hears beat now)) := by
  have hheld : (listener.step (.hears beat now)).online.beats[run.me]? =
      listener.online.beats[run.me]? := Online.held_heard_of_ne hname
  refine ⟨by simpa [Listener.step] using h.other, h.admitted, ?_⟩
  rw [hheld]
  refine h.held.imp_left fun hbefore => ⟨?_, hbefore.2⟩
  intro hmem
  rcases List.mem_cons.mp hmem with rfl | hmem
  · exact hname hgoodbye
  · exact hbefore.1 hmem

theorem Ending.step (h : run.Ending goodbye listener)
    (hgoodbye : (run.before k).goodbye? = some goodbye) (event : Listener.Event)
    (hok : run.SaysAtMost k goodbye event) : run.Ending goodbye (listener.step event) := by
  obtain ⟨hleaving, hepoch, hmember, hpast⟩ := goodbye_past hgoodbye
  cases event with
  | hears beat now =>
    by_cases hname : beat.member = run.me
    · rcases hok hname with rfl | ⟨j, hj, hbeat⟩
      · exact ⟨by simpa [Listener.step] using h.other, h.admitted,
          Or.inr (h.hears_goodbye hleaving hepoch hname)⟩
      · exact h.hears_before hname (beat?_eq_some hbeat).2.1 (hpast j hj beat hbeat)
    · exact h.hears_other hmember hname
  | expires now =>
    have hheld : (listener.step (.expires now)).online.beats[run.me]? = _ := Online.held_expire
    refine ⟨h.other, h.admitted, h.held.imp (fun hbefore => ⟨hbefore.1, ?_⟩) fun hafter => ?_⟩
    · intro held hmem
      rw [hheld, Option.mem_map] at hmem
      obtain ⟨earlier, hearlier, rfl⟩ := hmem
      have hsame := hbefore.2 earlier hearlier
      split
      · exact hsame
      · exact hsame
    · rw [hheld, hafter]
      rfl
  | members isMember =>
    have hheld : (listener.step (.members isMember)).online.beats[run.me]? =
        listener.online.beats[run.me]? := Online.held_retainMembers hok
    refine ⟨h.other, hok, ?_⟩
    rw [hheld]
    exact h.held

end Ending

/-- **A goodbye is final.** Wherever in its loop a node stops, whoever the goodbye has
reached counts it offline from then on, in whatever order the beats it said before get
there, as often as they do, and however time passes: its number was taken from what was
recorded before anything was sent. Left out is what undoes a goodbye whatever its number: a
beat of an earlier run (`Online.old_epoch_comes_back`), and that the node is forgotten and
admitted again (`Online.heard_of_forgotten`). -/
theorem goodbye_is_final (run : Run) {k : ℕ} {goodbye : Heartbeat}
    (hgoodbye : (run.before k).goodbye? = some goodbye) {me : MemberId} (hother : run.me ≠ me)
    {isMember : MemberId → Bool} (hadmitted : isMember run.me = true)
    (events : List Listener.Event)
    (hsaying : Along Listener.step (fun _ event => run.SaysAtMost k goodbye event)
      (.start me isMember) events) :
    let listener := exec Listener.step (.start me isMember) events
    goodbye ∈ listener.reached → listener.online.isOnline run.me = false := by
  intro listener hreached
  have hending : run.Ending goodbye listener := by
    refine Along.invariant (I := run.Ending goodbye)
      (fun listener event h hok => h.step hgoodbye event hok) ⟨hother, hadmitted, Or.inl ⟨?_, ?_⟩⟩
      hsaying
    · simp [Listener.start]
    · simp [Listener.start, Online.new]
  rcases hending.held with ⟨hnot, -⟩ | hafter
  · exact absurd hreached hnot
  · rw [Online.isOnline, hafter]
    rfl

/-- Bob stops after two beats, and the second is heard after the goodbye. -/
def lateBeat : List Listener.Event :=
  [.hears (Online.beatOf 7 1 false) 0, .hears (Online.beatOf 7 3 true) 11000000000,
    .hears (Online.beatOf 7 2 false) 12000000000, .expires 13000000000]

theorem goodbye_everyTen :
    (everyTen.before 2).goodbye? = some (Online.beatOf 7 3 true) := by
  rw [goodbye?, before, said_next, speak_of_some (beat?_everyTen _ 1), (before_everyTen 1).2]
  rfl

theorem goodbye_is_final_lateBeat :
    (exec Listener.step (.start alice fun _ => true) lateBeat).online.isOnline bob = false :=
  goodbye_is_final everyTen goodbye_everyTen (by decide) rfl lateBeat
    ⟨fun _ => Or.inr ⟨0, by decide, beatAt_everyTen 0⟩, fun _ => Or.inl rfl,
      fun _ => Or.inr ⟨1, by decide, beatAt_everyTen 1⟩, trivial, trivial⟩
    (List.mem_cons_of_mem _ List.mem_cons_self)

end Beating.Run

end Distlib
