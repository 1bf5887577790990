import Distlib.Lib.GuardedRun
import Distlib.Net.Newest

/-!
# Saying where one is, and falling silent

A node says where it is when it joins, when it moves, and when it hears where somebody new
is: whom it has only just heard of has probably not heard of it. Every node speaking makes
every other node speak, so it has to be shown that they stop.

After a statement a node waits for either of two channels, the addresses of its endpoint and
the newcomers of its directory, and takes one value of one of them. What the other holds is
still there for the next round, and the addresses begin with the current one. So a node that
joins speaks twice, and one that has moved and heard of somebody twice more.

They stop because a statement that says what the directory holds already is no news, and
news is what wakes a node. The bound is a measure (`unsettled`): the rounds that the nodes
have before them whatever they hear (`Announcer.rounds`), and the pairs of nodes of which one
does not yet know where the other is. Whoever speaks has a round fewer; whoever has one more
for what it hears takes a pair out of the second. So once nobody moves any more and no older
address is on its way, `announcing_ends`: at most three statements for every node and one
for every pair are still to be made, in whatever order things happen, however often anything
is delivered, and whatever is lost.

Nothing is asked of the positions that go with the statements: a statement that is dropped
for its position wakes nobody either.
-/

namespace Distlib

open GuardedRun

/-- What a node waits for between two statements. -/
inductive Channel : Type where
  /-- where its endpoint is: the current address at first, and then every change -/
  | addresses
  /-- that its directory has learned where somebody is -/
  | newcomers
  deriving DecidableEq

instance : Fintype Channel where
  elems := {.addresses, .newcomers}
  complete channel := by cases channel <;> decide

/-- One node, as far as it says where it is and hears where others are. -/
structure Announcer (Url : Type) where
  directory : Directory (EndpointAddr Url)
  /-- where the endpoint says it is -/
  addr : NodeAddr
  /-- how far it has got through the log -/
  position : ℕ
  /-- it has joined, or a channel has woken it, and it has not spoken since -/
  woken : Bool
  /-- the channels that hold something it has not taken; they keep the latest only -/
  unseen : Finset Channel
  /-- its last statement, which its beats carry -/
  said : Option SignedAddress

/-- The nodes of a group, and every statement they have made. Any of them may still be on
its way, to anybody. -/
structure Swarm (Url : Type) where
  nodes : MemberId → Announcer Url
  sent : List SignedAddress

inductive Swarm.Event : Type where
  | speaks (node : MemberId)
  /-- a node that waits takes what a channel holds -/
  | wakes (node : MemberId) (channel : Channel)
  | hears (node : MemberId) (announced : SignedAddress)
  | moves (node : MemberId) (addr : NodeAddr)
  | applies (node : MemberId) (position : ℕ)

/-- What a node says of itself, unless it knows no address or cannot sign. -/
def Announcer.statement {Url : Type} (sign : MemberId → NodeAddr → ℕ → Except CoreError Signature)
    (node : MemberId) (announcer : Announcer Url) : Option SignedAddress :=
  if announcer.addr.relay.isNone ∧ announcer.addr.direct = ∅ then none
  else
    match sign node announcer.addr announcer.position with
    | .error _ => none
    | .ok signature => some ⟨node, announcer.addr, announcer.position, signature⟩

/-- The node once it has said that. -/
def Announcer.spoken {Url : Type} (announcer : Announcer Url) (statement : Option SignedAddress) :
    Announcer Url :=
  { announcer with woken := false, said := statement.or announcer.said }

@[simp] theorem Announcer.addr_spoken {Url : Type} (announcer : Announcer Url)
    (statement : Option SignedAddress) : (announcer.spoken statement).addr = announcer.addr := rfl

/-- The node once it has taken what a channel holds; it waits for one value only. -/
def Announcer.wake {Url : Type} (announcer : Announcer Url) (channel : Channel) : Announcer Url :=
  if announcer.woken = false ∧ channel ∈ announcer.unseen then
    { announcer with woken := true, unseen := announcer.unseen.erase channel }
  else announcer

/-- The node once it has heard a statement; what changes its directory is for `newcomers`. -/
def Announcer.heard {Url : Type} [DecidableEq Url] (sig : AddressSigning) (urls : RelayUrls Url)
    (announcer : Announcer Url) (announced : SignedAddress) : Announcer Url :=
  let learnt := announcer.directory.learn sig (NodeAddr.toEndpointAddr urls) announced
  { announcer with
    directory := learnt.2
    unseen :=
      if learnt.1 = .ok true then insert .newcomers announcer.unseen else announcer.unseen }

@[simp] theorem Announcer.addr_heard {Url : Type} [DecidableEq Url] (sig : AddressSigning)
    (urls : RelayUrls Url) (announcer : Announcer Url) (announced : SignedAddress) :
    (announcer.heard sig urls announced).addr = announcer.addr := rfl

/-- How many rounds a node has before it, if it hears nothing more. -/
def Announcer.rounds {Url : Type} (announcer : Announcer Url) : ℕ :=
  announcer.woken.toNat + announcer.unseen.card

theorem Announcer.rounds_le {Url : Type} (announcer : Announcer Url) : announcer.rounds ≤ 3 := by
  have hwoken : announcer.woken.toNat ≤ 1 := Bool.toNat_le _
  have hunseen : announcer.unseen.card ≤ 2 := Finset.card_le_univ _
  rw [rounds]
  omega

/-- A round begun is a round that was to come. -/
theorem Announcer.rounds_wake {Url : Type} (announcer : Announcer Url) (channel : Channel) :
    (announcer.wake channel).rounds = announcer.rounds := by
  rw [wake]
  split
  · rename_i hwaits
    have hcard := Finset.card_erase_add_one hwaits.2
    simp only [rounds, hwaits.1, Bool.toNat_true, Bool.toNat_false]
    omega
  · rfl

theorem Announcer.wake_addr {Url : Type} (announcer : Announcer Url) (channel : Channel) :
    (announcer.wake channel).addr = announcer.addr ∧
      (announcer.wake channel).directory = announcer.directory := by
  rw [wake]
  split
  · exact ⟨rfl, rfl⟩
  · exact ⟨rfl, rfl⟩

/-- A statement is of where its node is. -/
theorem Announcer.statement_eq_some {Url : Type} {announcer : Announcer Url} {node : MemberId}
    {sign : MemberId → NodeAddr → ℕ → Except CoreError Signature} {announced : SignedAddress}
    (h : announcer.statement sign node = some announced) :
    announced.member = node ∧ announced.said = announcer.addr := by
  rw [Announcer.statement] at h
  split at h
  · exact absurd h (Option.some_ne_none _).symm
  · split at h
    · exact absurd h (Option.some_ne_none _).symm
    · obtain rfl := Option.some.inj h
      exact ⟨rfl, rfl⟩

namespace Swarm

variable {Url : Type}

def put (swarm : Swarm Url) (node : MemberId) (announcer : Announcer Url) : Swarm Url :=
  { swarm with nodes := Function.update swarm.nodes node announcer }

section Step

variable [DecidableEq Url] (sig : AddressSigning) (urls : RelayUrls Url)
  (sign : MemberId → NodeAddr → ℕ → Except CoreError Signature)

/-- A node that has joined or was woken says where it is, and waits. -/
def speak (swarm : Swarm Url) (node : MemberId) : Swarm Url :=
  let announcer := swarm.nodes node
  if announcer.woken then
    let statement := announcer.statement sign node
    { swarm.put node (announcer.spoken statement) with sent := statement.toList ++ swarm.sent }
  else swarm

/-- One thing that happens: a node speaks, is woken, hears a statement by gossip or by a beat,
moves, or gets further through the log. -/
def step (swarm : Swarm Url) : Event → Swarm Url
  | .speaks node => swarm.speak sign node
  | .wakes node channel => swarm.put node ((swarm.nodes node).wake channel)
  | .hears node announced => swarm.put node ((swarm.nodes node).heard sig urls announced)
  | .moves node addr =>
    let announcer := swarm.nodes node
    swarm.put node { announcer with addr, unseen := insert .addresses announcer.unseen }
  | .applies node position => swarm.put node { swarm.nodes node with position }

end Step

/-! ## What is left to be said -/

variable {swarm : Swarm Url} {node member : MemberId} {announcer : Announcer Url}

@[simp] theorem nodes_put_self : (swarm.put node announcer).nodes node = announcer :=
  Function.update_self ..

theorem nodes_put_of_ne (h : member ≠ node) :
    (swarm.put node announcer).nodes member = swarm.nodes member :=
  Function.update_of_ne h ..

@[simp] theorem sent_put : (swarm.put node announcer).sent = swarm.sent := rfl

theorem addr_put (haddr : announcer.addr = (swarm.nodes node).addr) (member : MemberId) :
    ((swarm.put node announcer).nodes member).addr = (swarm.nodes member).addr := by
  by_cases hmember : member = node
  · rw [hmember, nodes_put_self, haddr]
  · rw [nodes_put_of_ne hmember]

/-- How many rounds the nodes have before them. -/
def toSpeak (group : Finset MemberId) (swarm : Swarm Url) : ℕ :=
  ∑ node ∈ group, (swarm.nodes node).rounds

/-- A node put back makes the difference that it makes itself. -/
theorem toSpeak_put (swarm : Swarm Url) (announcer : Announcer Url)
    {group : Finset MemberId} (hmem : node ∈ group) :
    (swarm.put node announcer).toSpeak group + (swarm.nodes node).rounds =
      swarm.toSpeak group + announcer.rounds := by
  have hothers : ∑ who ∈ group.erase node, ((swarm.put node announcer).nodes who).rounds =
      ∑ who ∈ group.erase node, (swarm.nodes who).rounds :=
    Finset.sum_congr rfl fun who hwho => by rw [nodes_put_of_ne (Finset.ne_of_mem_erase hwho)]
  have hafter := Finset.sum_erase_add group
    (fun who => ((swarm.put node announcer).nodes who).rounds) hmem
  have hbefore := Finset.sum_erase_add group (fun who => (swarm.nodes who).rounds) hmem
  rw [nodes_put_self] at hafter
  rw [toSpeak, toSpeak]
  omega

theorem toSpeak_put_of_same (group : Finset MemberId)
    (hrounds : announcer.rounds = (swarm.nodes node).rounds) :
    (swarm.put node announcer).toSpeak group = swarm.toSpeak group := by
  refine Finset.sum_congr rfl fun who _ => ?_
  by_cases hsame : who = node
  · rw [hsame, nodes_put_self, hrounds]
  · rw [nodes_put_of_ne hsame]

section Knowing

variable [DecidableEq Url] (urls : RelayUrls Url)

/-- Whether a node would dial a member where that says it is. -/
def knows (swarm : Swarm Url) (node member : MemberId) : Bool :=
  match (swarm.nodes member).addr.toEndpointAddr urls member with
  | .error _ => false
  | .ok endpoint => (swarm.nodes node).directory.lookup[member]? = some endpoint

/-- How many pairs there are of which the first does not know where the second is. -/
def strangers (group : Finset MemberId) (swarm : Swarm Url) : ℕ :=
  ((group ×ˢ group).filter fun pair => swarm.knows urls pair.1 pair.2 = false).card

/-- What is left to be said, at most. -/
def unsettled (group : Finset MemberId) (swarm : Swarm Url) : ℕ :=
  swarm.toSpeak group + swarm.strangers urls group

theorem unsettled_le (group : Finset MemberId) (swarm : Swarm Url) :
    swarm.unsettled urls group ≤ 3 * group.card + group.card * group.card := by
  refine add_le_add ?_ ((Finset.card_filter_le _ _).trans (Finset.card_product group group).le)
  calc swarm.toSpeak group ≤ ∑ _node ∈ group, 3 :=
        Finset.sum_le_sum fun node _ => (swarm.nodes node).rounds_le
    _ = 3 * group.card := by rw [Finset.sum_const, smul_eq_mul, Nat.mul_comm]

variable {urls}

/-- Knowing is a matter of where the one is and what the other would dial. -/
theorem knows_congr {other : Swarm Url} (haddr : (other.nodes member).addr = (swarm.nodes member).addr)
    (hlookup : (other.nodes node).directory.lookup[member]? =
      (swarm.nodes node).directory.lookup[member]?) :
    other.knows urls node member = swarm.knows urls node member := by
  rw [knows, knows, haddr, hlookup]

/-- Putting back a node that is where it was changes what is known by that node alone. -/
theorem knows_put (haddr : announcer.addr = (swarm.nodes node).addr) {who : MemberId}
    (hlookup : who = node → announcer.directory.lookup[member]? =
      (swarm.nodes node).directory.lookup[member]?) :
    (swarm.put node announcer).knows urls who member = swarm.knows urls who member := by
  refine knows_congr ?_ ?_
  · by_cases hmember : member = node
    · rw [hmember, nodes_put_self, haddr]
    · rw [nodes_put_of_ne hmember]
  · by_cases hwho : who = node
    · rw [hwho, nodes_put_self, hlookup hwho]
    · rw [nodes_put_of_ne hwho]

theorem strangers_congr (group : Finset MemberId) {other : Swarm Url}
    (h : ∀ node member, other.knows urls node member = swarm.knows urls node member) :
    other.strangers urls group = swarm.strangers urls group := by
  refine congrArg Finset.card (Finset.filter_congr fun pair _ => ?_)
  rw [h]

/-- A pair fewer, if one learns where the other is and nothing is forgotten. -/
theorem strangers_lt {group : Finset MemberId} {other : Swarm Url} (hnode : node ∈ group)
    (hmember : member ∈ group) (hbefore : swarm.knows urls node member = false)
    (hafter : other.knows urls node member = true)
    (hkept : ∀ node member, swarm.knows urls node member = true →
      other.knows urls node member = true) :
    other.strangers urls group + 1 ≤ swarm.strangers urls group := by
  refine Finset.card_lt_card (Finset.ssubset_iff_of_subset ?_ |>.mpr ⟨(node, member), ?_, ?_⟩)
  · intro pair hpair
    rw [Finset.mem_filter] at hpair ⊢
    refine ⟨hpair.1, Bool.eq_false_iff.mpr fun hknown => ?_⟩
    exact absurd (hkept _ _ hknown) (Bool.eq_false_iff.mp hpair.2)
  · rw [Finset.mem_filter, Finset.mem_product]
    exact ⟨⟨hnode, hmember⟩, hbefore⟩
  · simp [hafter]

/-! ## One step -/

variable {sig : AddressSigning} {sign : MemberId → NodeAddr → ℕ → Except CoreError Signature}
  {group : Finset MemberId}

/-- **A group that has settled**: nobody moves, and what is heard was said by a member of it,
or does not verify. -/
def Settled (sig : AddressSigning) (group : Finset MemberId) (swarm : Swarm Url) : Event → Prop
  | .speaks node => node ∈ group
  | .wakes _ _ => True
  | .hears node announced => node ∈ group ∧ (announced ∈ swarm.sent ∨ announced.verify sig ≠ .ok ())
  | .moves _ _ => False
  | .applies _ _ => True

/-- Every statement that may be on its way says where its member is now. -/
def Current (group : Finset MemberId) (swarm : Swarm Url) : Prop :=
  ∀ announced ∈ swarm.sent, announced.member ∈ group ∧
    announced.said = (swarm.nodes announced.member).addr

omit [DecidableEq Url] in
/-- What is on its way says the same of a node that has not moved. -/
theorem Current.put (h : swarm.Current group) (haddr : announcer.addr = (swarm.nodes node).addr) :
    (swarm.put node announcer).Current group := by
  intro announced hannounced
  obtain ⟨hin, hsaid⟩ := h announced hannounced
  exact ⟨hin, hsaid.trans (addr_put haddr announced.member).symm⟩

/-- What a step may do: it keeps where everybody is and what is known, and what it says it
takes from what is left to be said. -/
structure Lessens (urls : RelayUrls Url) (group : Finset MemberId) (before after : Swarm Url) :
    Prop where
  addr : ∀ member, (after.nodes member).addr = (before.nodes member).addr
  current : before.Current group → after.Current group
  knows : ∀ node member, before.knows urls node member = true → after.knows urls node member = true
  left : after.sent.length + after.unsettled urls group ≤
    before.sent.length + before.unsettled urls group

theorem Lessens.trans {first second third : Swarm Url} (h : Lessens urls group first second)
    (h' : Lessens urls group second third) : Lessens urls group first third where
  addr member := (h'.addr member).trans (h.addr member)
  current hcurrent := h'.current (h.current hcurrent)
  knows node member hknown := h'.knows node member (h.knows node member hknown)
  left := h'.left.trans h.left

theorem Lessens.refl (swarm : Swarm Url) : Lessens urls group swarm swarm :=
  ⟨fun _ => rfl, id, fun _ _ => id, le_rfl⟩

/-- Who speaks has a round fewer before it. -/
theorem lessens_speak (swarm : Swarm Url) (hmem : node ∈ group) :
    Lessens urls group swarm (swarm.speak sign node) := by
  rw [speak]
  by_cases hwoken : (swarm.nodes node).woken = true
  · rw [if_pos hwoken]
    generalize hstatement : (swarm.nodes node).statement sign node = statement
    have haddr : ((swarm.nodes node).spoken statement).addr = (swarm.nodes node).addr := rfl
    have hknows : ∀ who member,
        (swarm.put node ((swarm.nodes node).spoken statement)).knows urls who member =
          swarm.knows urls who member := fun who member => knows_put haddr fun _ => rfl
    refine ⟨addr_put haddr, ?_, fun who member hknown => (hknows who member).trans hknown, ?_⟩
    · intro hcurrent announced hannounced
      rcases List.mem_append.mp hannounced with hnew | hold
      · rw [Option.mem_toList, ← hstatement] at hnew
        obtain ⟨hmember, hsaid⟩ := Announcer.statement_eq_some hnew
        rw [hmember]
        exact ⟨hmem, hsaid.trans (addr_put haddr node).symm⟩
      · exact hcurrent.put haddr announced hold
    · have hspoken : (swarm.put node ((swarm.nodes node).spoken statement)).toSpeak group + 1 =
          swarm.toSpeak group := by
        have hput := toSpeak_put swarm ((swarm.nodes node).spoken statement) hmem
        have hrounds : (swarm.nodes node).rounds =
            ((swarm.nodes node).spoken statement).rounds + 1 := by
          simp only [Announcer.rounds, Announcer.spoken, hwoken, Bool.toNat_true, Bool.toNat_false]
          omega
        omega
      have hstrangers : (swarm.put node ((swarm.nodes node).spoken statement)).strangers urls group =
          swarm.strangers urls group := strangers_congr group hknows
      have hone : statement.toList.length ≤ 1 := by cases statement <;> simp
      rw [List.length_append]
      change _ + ((swarm.put node ((swarm.nodes node).spoken statement)).toSpeak group +
        (swarm.put node ((swarm.nodes node).spoken statement)).strangers urls group) ≤ _ + (_ + _)
      omega
  · rw [if_neg hwoken]
    exact .refl swarm

/-- What leaves the rounds and the directory of a node alone changes nothing that is counted. -/
theorem lessens_put_of_same (swarm : Swarm Url) (haddr : announcer.addr = (swarm.nodes node).addr)
    (hrounds : announcer.rounds = (swarm.nodes node).rounds)
    (hlookup : announcer.directory.lookup = (swarm.nodes node).directory.lookup) :
    Lessens urls group swarm (swarm.put node announcer) := by
  have hknows : ∀ who member, (swarm.put node announcer).knows urls who member =
      swarm.knows urls who member := fun who member => knows_put haddr fun _ => by rw [hlookup]
  refine ⟨addr_put haddr, fun hcurrent => hcurrent.put haddr,
    fun who member hknown => (hknows who member).trans hknown, ?_⟩
  rw [unsettled, unsettled, toSpeak_put_of_same group hrounds, strangers_congr group hknows, sent_put]

/-- What is heard and is news makes one node known to another, for one round more at most. -/
theorem lessens_put_of_news (swarm : Swarm Url) (hmem : node ∈ group) (hmember : member ∈ group)
    (haddr : announcer.addr = (swarm.nodes node).addr)
    (hrounds : announcer.rounds ≤ (swarm.nodes node).rounds + 1) {endpoint : EndpointAddr Url}
    (hendpoint : (swarm.nodes member).addr.toEndpointAddr urls member = .ok endpoint)
    (hnew : (swarm.nodes node).directory.lookup[member]? ≠ some endpoint)
    (hlookup : announcer.directory.lookup =
      ((swarm.nodes node).directory.lookup.erase member).insert member endpoint) :
    Lessens urls group swarm (swarm.put node announcer) := by
  have hbefore : swarm.knows urls node member = false := by
    rw [knows, hendpoint]
    exact decide_eq_false hnew
  have hafter : (swarm.put node announcer).knows urls node member = true := by
    rw [knows, addr_put haddr, hendpoint, nodes_put_self, hlookup]
    exact decide_eq_true Std.ExtTreeMap.getElem?_insert_self
  have hkept : ∀ who other, swarm.knows urls who other = true →
      (swarm.put node announcer).knows urls who other = true := by
    intro who other hknown
    by_cases hpair : who = node ∧ other = member
    · rw [hpair.1, hpair.2, hafter]
    · rw [knows_put haddr, hknown]
      rintro rfl
      have hother : other ≠ member := fun hother => hpair ⟨rfl, hother⟩
      rw [hlookup]
      simp [Std.ExtTreeMap.getElem?_insert, Std.ExtTreeMap.getElem?_erase, hother.symm]
  refine ⟨addr_put haddr, fun hcurrent => hcurrent.put haddr, hkept, ?_⟩
  have hspeak := toSpeak_put swarm announcer hmem
  have hstrangers := strangers_lt hmem hmember hbefore hafter hkept
  rw [unsettled, unsettled, sent_put]
  omega

/-- **News is for one more round, and is news once**: it takes a pair out of those that are
strangers. -/
theorem lessens_hear (swarm : Swarm Url) {announced : SignedAddress}
    (hok : swarm.Settled sig group (.hears node announced)) (hcurrent : swarm.Current group) :
    Lessens urls group swarm (swarm.put node ((swarm.nodes node).heard sig urls announced)) := by
  obtain ⟨hmem, hsaid⟩ := hok
  have haddr : ((swarm.nodes node).heard sig urls announced).addr = (swarm.nodes node).addr := rfl
  rcases Directory.learn_cases sig urls (swarm.nodes node).directory announced with
    ⟨hno, hsame, -⟩ | ⟨hacceptable, -, endpoint, hendpoint, -, hlearnt⟩
  · refine lessens_put_of_same swarm haddr ?_ ?_
    · simp [Announcer.heard, Announcer.rounds, hno]
    · simp [Announcer.heard, hsame]
  · rcases hlearnt with ⟨-, hno, hlookup, -⟩ | ⟨hnew, hnews, hlookup, -⟩
    · refine lessens_put_of_same swarm haddr ?_ ?_
      · simp [Announcer.heard, Announcer.rounds, hno]
      · simp [Announcer.heard, hlookup]
    · have hsent : announced ∈ swarm.sent := hsaid.resolve_right fun h => h hacceptable.1
      obtain ⟨hmember, hwhere⟩ := hcurrent announced hsent
      rw [hwhere] at hendpoint
      refine lessens_put_of_news swarm hmem hmember haddr ?_ hendpoint hnew hlookup
      have hinsert := Finset.card_insert_le Channel.newcomers (swarm.nodes node).unseen
      simp only [Announcer.rounds, Announcer.heard, hnews, if_true]
      omega

theorem lessens_step (swarm : Swarm Url) {event : Event} (hok : swarm.Settled sig group event)
    (hcurrent : swarm.Current group) :
    Lessens urls group swarm (swarm.step sig urls sign event) := by
  cases event with
  | speaks node => exact lessens_speak swarm hok
  | wakes node channel =>
    obtain ⟨haddr, hdirectory⟩ := (swarm.nodes node).wake_addr channel
    exact lessens_put_of_same swarm haddr (Announcer.rounds_wake _ channel)
      (congrArg Directory.lookup hdirectory)
  | hears node announced => exact lessens_hear swarm hok hcurrent
  | moves node addr => exact hok.elim
  | applies node position => exact lessens_put_of_same swarm rfl rfl rfl

end Knowing

/-! ## Silence -/

/-- **A group that has settled falls silent.** From any state in which every statement that
may still arrive says where its member is, and as long as nobody moves: what is said from
then on is at most a statement for each round that the nodes have before them and one for
each pair of which one does not know where the other is, so no more than three for each node
and one for each pair, whatever order things happen in, however often a statement is
delivered, whatever is lost, and whatever else is sent that does not verify. Nothing that is
known is forgotten on the way. -/
theorem announcing_ends [DecidableEq Url] (sig : AddressSigning) (urls : RelayUrls Url)
    (sign : MemberId → NodeAddr → ℕ → Except CoreError Signature) (group : Finset MemberId)
    (swarm : Swarm Url) (hcurrent : swarm.Current group) (events : List Event)
    (hsettled : Along (step sig urls sign) (Settled sig group) swarm events) :
    let after := exec (step sig urls sign) swarm events
    after.sent.length + after.unsettled urls group ≤
        swarm.sent.length + swarm.unsettled urls group ∧
      after.sent.length ≤ swarm.sent.length + (3 * group.card + group.card * group.card) ∧
      ∀ node member, swarm.knows urls node member = true → after.knows urls node member = true := by
  intro after
  have hlessens : Lessens urls group swarm after :=
    Along.related (I := Current group)
      (fun swarm event hcurrent hok => by
        have hstep : Lessens urls group swarm (swarm.step sig urls sign event) :=
          lessens_step swarm hok hcurrent
        exact ⟨hstep.current hcurrent, hstep⟩)
      .refl (fun _ _ _ => .trans) hcurrent hsettled
  have hleft := hlessens.left
  have hmost := unsettled_le urls group swarm
  exact ⟨hleft, by omega, hlessens.knows⟩

/-! ### Two nodes that meet -/

/-- A relay's URL is read as it is written. -/
def plainUrls : RelayUrls String := ⟨.ok, id⟩

/-- Every signature is taken. -/
def unchecked : AddressSigning := ⟨fun _ _ _ => .ok [], fun _ _ _ => true⟩

def unsigned (_ : MemberId) (_ : NodeAddr) (_ : ℕ) : Except CoreError Signature := .ok ⟨0⟩

/-- Everybody has just joined, alice behind one relay and the others behind another. -/
def justJoined : Swarm String where
  nodes node :=
    ⟨.empty, ⟨some (if node = alice then "one" else "two"), ∅⟩, 0, true, {.addresses}, none⟩
  sent := []

/-- Alice speaks and bob hears it, bob speaks and alice hears that. Each of them has yet to
speak of the address it began with, and of the other; and what they say then is no news. -/
def meeting : List Event :=
  [.speaks alice, .hears bob ⟨alice, ⟨some "one", ∅⟩, 0, ⟨0⟩⟩, .speaks bob,
    .hears alice ⟨bob, ⟨some "two", ∅⟩, 0, ⟨0⟩⟩, .wakes alice .addresses, .speaks alice,
    .wakes alice .newcomers, .speaks alice, .hears bob ⟨alice, ⟨some "one", ∅⟩, 0, ⟨0⟩⟩,
    .wakes bob .newcomers, .speaks bob, .wakes bob .addresses, .speaks bob, .speaks bob]

instance [DecidableEq Url] (sig : AddressSigning) (group : Finset MemberId) (swarm : Swarm Url) :
    (event : Event) → Decidable (swarm.Settled sig group event)
  | .speaks _ => inferInstanceAs (Decidable (_ ∈ _))
  | .wakes _ _ => inferInstanceAs (Decidable True)
  | .hears _ _ => inferInstanceAs (Decidable (_ ∈ _ ∧ (_ ∈ _ ∨ _)))
  | .moves _ _ => inferInstanceAs (Decidable False)
  | .applies _ _ => inferInstanceAs (Decidable True)

theorem settled_meeting :
    Along (step unchecked plainUrls unsigned) (Settled unchecked {alice, bob}) justJoined meeting := by
  decide +kernel

/-- Six statements are made of the ten that could have been. -/
theorem announcing_ends_meeting :
    (exec (step unchecked plainUrls unsigned) justJoined meeting).sent.length = 6 ∧
      (exec (step unchecked plainUrls unsigned) justJoined meeting).sent.length ≤
        justJoined.sent.length +
          (3 * ({alice, bob} : Finset MemberId).card +
            ({alice, bob} : Finset MemberId).card * ({alice, bob} : Finset MemberId).card) :=
  ⟨by decide +kernel,
    (announcing_ends unchecked plainUrls unsigned {alice, bob} justJoined
      (List.forall_mem_nil _) meeting settled_meeting).2.1⟩

end Swarm

end Distlib
