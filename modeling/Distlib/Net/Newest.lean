import Distlib.Net.Directory

/-!
# The newest statement of each member

A directory keeps two things for a member: the statement it holds, which decides
whether the next one is older, and the entry in the lookup the network layer dials
from, which decides whether the next one is news. Both are written by `learn` alone,
and not always together: a member who says again where it is moves the first and
leaves the second.

What has to hold of any history, in whatever order the statements arrive and however
often, is therefore that the two stay in step: of all the statements heard that could be
taken, the last one at the greatest position is held, and the lookup has its address
(`inStep_learn`). From that everything asked of a directory is read off: a position is
the greatest that was said, an address is what the network layer makes of the newest
statement, and news is what changes an answer.
-/

namespace Distlib

/-! ## What is dialled -/

/-- How the network layer reads a relay's URL, and writes one down. -/
structure RelayUrls (Url : Type) where
  parse : String → Except String Url
  toString : Url → String

/-- What the network layer dials: a member, by a relay and by what is known of its
sockets. -/
structure EndpointAddr (Url : Type) where
  id : MemberId
  relay : Option Url
  ipAddrs : Finset SocketAddr
  deriving DecidableEq

variable {Url : Type}

/-- An address as something that can be dialled. -/
def NodeAddr.toEndpointAddr (urls : RelayUrls Url) (addr : NodeAddr) (member : MemberId) :
    Except String (EndpointAddr Url) :=
  match addr.relay with
  | none => .ok ⟨member, none, addr.direct⟩
  | some url =>
    match urls.parse url with
    | .error error => .error error
    | .ok relay => .ok ⟨member, some relay, addr.direct⟩

/-- The way back, which loses the member. -/
def NodeAddr.ofEndpointAddr (urls : RelayUrls Url) (addr : EndpointAddr Url) : NodeAddr :=
  ⟨addr.relay.map urls.toString, addr.ipAddrs⟩

/-- How members are dialled where relays' URLs are read so. -/
def RelayUrls.dialling (urls : RelayUrls Url) : Dialling (EndpointAddr Url) where
  toEndpointAddr := NodeAddr.toEndpointAddr urls
  addr := NodeAddr.ofEndpointAddr urls
  id := EndpointAddr.id

/-- The relay's URL, if there is one, is written as the network layer would write it. -/
def NodeAddr.Normal (urls : RelayUrls Url) (addr : NodeAddr) : Prop :=
  ∀ text url, addr.relay = some text → urls.parse text = .ok url → urls.toString url = text

/-- What is dialled is what was said, but for the spelling of a relay's URL. -/
theorem NodeAddr.ofEndpointAddr_of_normal {urls : RelayUrls Url} {addr : NodeAddr}
    {member : MemberId} {endpoint : EndpointAddr Url}
    (h : addr.toEndpointAddr urls member = .ok endpoint) (hnormal : addr.Normal urls) :
    ofEndpointAddr urls endpoint = addr := by
  obtain ⟨relay, direct⟩ := addr
  cases relay with
  | none =>
    cases h
    rfl
  | some text =>
    rw [toEndpointAddr] at h
    dsimp only at h
    rcases hparse : urls.parse text with error | url
    · rw [hparse] at h
      cases h
    · rw [hparse] at h
      cases h
      rw [ofEndpointAddr, Option.map_some, hnormal text url rfl hparse]

namespace Directory

/-! ## What a directory answers -/

/-- A directory nobody has said anything to. -/
def empty : Directory (EndpointAddr Url) := ⟨∅, ∅, 0⟩

/-- Where the network layer would dial a member. -/
def resolve (directory : Directory (EndpointAddr Url)) (member : MemberId) :
    Option (EndpointAddr Url) :=
  directory.lookup[member]?

/-- The log position of what is held for a member. -/
def positionOf (directory : Directory (EndpointAddr Url)) (member : MemberId) : Option ℕ :=
  directory.signedAddresses[member]?.map SignedAddress.applied

variable (sig : AddressSigning) (urls : RelayUrls Url)

/-- A directory after these statements, one after the other. -/
def learnAll [DecidableEq Url] (directory : Directory (EndpointAddr Url)) (statements : List SignedAddress) :
    Directory (EndpointAddr Url) :=
  statements.foldl (fun directory announced =>
    (directory.learn sig (NodeAddr.toEndpointAddr urls) announced).2) directory

/-- A statement about `member` that could be taken. -/
def SaidBy (member : MemberId) (announced : SignedAddress) : Prop :=
  announced.member = member ∧ Acceptable sig (NodeAddr.toEndpointAddr urls) announced

/-- The statement of `member` to go by: of those that could be taken the last at the
greatest position. -/
structure Newest (statements : List SignedAddress) (member : MemberId) (newest : SignedAddress) :
    Prop where
  said : SaidBy sig urls member newest
  last : ∃ before after, statements = before ++ newest :: after ∧
    (∀ earlier ∈ before, SaidBy sig urls member earlier → earlier.applied ≤ newest.applied) ∧
    ∀ later ∈ after, SaidBy sig urls member later → later.applied < newest.applied

/-- The two stores are in step with what was heard, for every member: the newest statement
is held and its address can be dialled, or none was made and neither store has anything. -/
def InStep (statements : List SignedAddress) (directory : Directory (EndpointAddr Url)) : Prop :=
  ∀ member,
    (∃ newest endpoint, Newest sig urls statements member newest ∧
      newest.said.toEndpointAddr urls member = .ok endpoint ∧
      directory.signedAddresses[member]? = some newest ∧
      directory.lookup[member]? = some endpoint) ∨
    (∀ announced ∈ statements, ¬SaidBy sig urls member announced) ∧
      directory.signedAddresses[member]? = none ∧ directory.lookup[member]? = none

variable {sig urls} {statements : List SignedAddress} {member : MemberId}
  {announced newest : SignedAddress} {directory : Directory (EndpointAddr Url)}

/-! ## The newest of a history -/

theorem Newest.mem (h : Newest sig urls statements member newest) : newest ∈ statements := by
  obtain ⟨before, after, rfl, -, -⟩ := h.last
  exact List.mem_append_right _ List.mem_cons_self

theorem Newest.le (h : Newest sig urls statements member newest) (hmem : announced ∈ statements)
    (hsaid : SaidBy sig urls member announced) : announced.applied ≤ newest.applied := by
  obtain ⟨before, after, rfl, hbefore, hafter⟩ := h.last
  rcases List.mem_append.mp hmem with hearlier | hrest
  · exact hbefore announced hearlier hsaid
  · rcases List.mem_cons.mp hrest with rfl | hlater
    · exact le_rfl
    · exact (hafter announced hlater hsaid).le

/-- What cannot be taken, is about another or is older leaves the newest what it is. -/
theorem Newest.concat (h : Newest sig urls statements member newest)
    (hless : SaidBy sig urls member announced → announced.applied < newest.applied) :
    Newest sig urls (statements ++ [announced]) member newest := by
  obtain ⟨before, after, rfl, hbefore, hafter⟩ := h.last
  refine ⟨h.said, before, after ++ [announced], by rw [List.append_assoc, List.cons_append],
    hbefore, fun later hlater hsaid => ?_⟩
  rcases List.mem_append.mp hlater with hold | hnew
  · exact hafter later hold hsaid
  · obtain rfl := List.mem_singleton.mp hnew
    exact hless hsaid

/-! ## What a history comes to -/

/-- A position held is the greatest a statement that could be taken was made at. -/
theorem InStep.positionOf_eq_some (h : InStep sig urls statements directory) {position : ℕ} :
    directory.positionOf member = some position ↔
      IsGreatest {applied | ∃ announced ∈ statements, SaidBy sig urls member announced ∧
        announced.applied = applied} position := by
  rw [positionOf]
  rcases h member with ⟨newest, endpoint, hnewest, -, hheld, -⟩ | ⟨hnone, hheld, -⟩
  · have hgreatest : IsGreatest {applied | ∃ announced ∈ statements,
        SaidBy sig urls member announced ∧ announced.applied = applied} newest.applied := by
      refine ⟨⟨newest, hnewest.mem, hnewest.said, rfl⟩, ?_⟩
      rintro _ ⟨announced, hmem, hsaid, rfl⟩
      exact hnewest.le hmem hsaid
    rw [hheld, Option.map_some, Option.some.injEq]
    exact ⟨fun heq => heq ▸ hgreatest, fun hother => hgreatest.unique hother⟩
  · rw [hheld]
    refine ⟨fun hsome => (by cases hsome), fun hgreatest => ?_⟩
    obtain ⟨announced, hmem, hsaid, -⟩ := hgreatest.1
    exact absurd hsaid (hnone announced hmem)

/-- None is held exactly where no statement could be taken. -/
theorem InStep.positionOf_eq_none (h : InStep sig urls statements directory) :
    directory.positionOf member = none ↔
      ∀ announced ∈ statements, ¬SaidBy sig urls member announced := by
  rw [positionOf]
  rcases h member with ⟨newest, endpoint, hnewest, -, hheld, -⟩ | ⟨hnone, hheld, -⟩
  · rw [hheld]
    exact ⟨fun hnone => (by cases hnone), fun hnone => absurd hnewest.said (hnone newest hnewest.mem)⟩
  · rw [hheld]
    exact ⟨fun _ => hnone, fun _ => rfl⟩

/-- Where a position is held, what is dialled is the newest statement's address. -/
theorem InStep.addressOf_eq_some (h : InStep sig urls statements directory) {position : ℕ}
    (hposition : directory.positionOf member = some position) :
    ∃ newest endpoint, Newest sig urls statements member newest ∧ newest.applied = position ∧
      newest.said.toEndpointAddr urls member = .ok endpoint ∧
      directory.addressOf urls.dialling member = some (.ofEndpointAddr urls endpoint) := by
  rw [positionOf] at hposition
  rcases h member with ⟨newest, endpoint, hnewest, hparse, hheld, hlookup⟩ | ⟨-, hheld, -⟩
  · rw [hheld] at hposition
    refine ⟨newest, endpoint, hnewest, Option.some.inj hposition, hparse, ?_⟩
    rw [addressOf, hlookup, Option.map_some]
    rfl
  · rw [hheld] at hposition
    cases hposition

/-- Where none is held, nothing is dialled. -/
theorem InStep.addressOf_eq_none (h : InStep sig urls statements directory)
    (hposition : directory.positionOf member = none) : directory.addressOf urls.dialling member = none := by
  rw [positionOf] at hposition
  rcases h member with ⟨newest, endpoint, -, -, hheld, -⟩ | ⟨-, -, hlookup⟩
  · rw [hheld] at hposition
    cases hposition
  · rw [addressOf, hlookup, Option.map_none]

/-! ## One statement -/

variable [DecidableEq Url]

/-- What a statement does: nothing, if it cannot be taken or is older than the one held;
else it is held, and dialled from now on if that is another address. -/
theorem learn_cases (sig : AddressSigning) (urls : RelayUrls Url)
    (directory : Directory (EndpointAddr Url)) (announced : SignedAddress) :
    let learnt := directory.learn sig (NodeAddr.toEndpointAddr urls) announced
    (learnt.1 ≠ .ok true ∧ learnt.2 = directory ∧
      (Acceptable sig (NodeAddr.toEndpointAddr urls) announced →
        ∃ held, directory.signedAddresses[announced.member]? = some held ∧
          announced.applied < held.applied)) ∨
    Acceptable sig (NodeAddr.toEndpointAddr urls) announced ∧
      (∀ held, directory.signedAddresses[announced.member]? = some held →
        held.applied ≤ announced.applied) ∧
      ∃ endpoint, announced.said.toEndpointAddr urls announced.member = .ok endpoint ∧
        learnt.2.signedAddresses = directory.signedAddresses.insert announced.member announced ∧
        (directory.lookup[announced.member]? = some endpoint ∧ learnt.1 = .ok false ∧
            learnt.2.lookup = directory.lookup ∧ learnt.2.learned = directory.learned ∨
          directory.lookup[announced.member]? ≠ some endpoint ∧ learnt.1 = .ok true ∧
            learnt.2.lookup = (directory.lookup.erase announced.member).insert announced.member
              endpoint ∧
            learnt.2.learned = (directory.learned + 1) % 2 ^ 64) := by
  dsimp only
  rw [learn]
  rcases hverified : announced.verify sig with source | _
  · rw [show announced.addr sig = .error source by rw [SignedAddress.addr, hverified]]
    refine Or.inl ⟨by simp, rfl, fun hacceptable => ?_⟩
    rw [hacceptable.1] at hverified
    cases hverified
  rw [show announced.addr sig = .ok announced.said by rw [SignedAddress.addr, hverified]]
  dsimp only
  by_cases hempty : announced.said.relay.isNone ∧ announced.said.direct = ∅
  · rw [if_pos hempty]
    exact Or.inl ⟨by simp, rfl, fun hacceptable => absurd hempty hacceptable.2.1⟩
  rw [if_neg hempty]
  rcases hparse : announced.said.toEndpointAddr urls announced.member with error | endpoint
  · refine Or.inl ⟨by simp, rfl, fun hacceptable => ?_⟩
    have hparses := hacceptable.2.2
    rw [hparse] at hparses
    cases hparses
  dsimp only
  have hacceptable : Acceptable sig (NodeAddr.toEndpointAddr urls) announced :=
    ⟨hverified, hempty, by rw [hparse]; rfl⟩
  by_cases holder : directory.signedAddresses[announced.member]?.any
      fun held => announced.applied < held.applied
  · rw [if_pos holder]
    obtain ⟨held, hheld, hlt⟩ := Option.any_eq_true _ _ |>.mp holder
    exact Or.inl ⟨by simp, rfl, fun _ => ⟨held, hheld, of_decide_eq_true hlt⟩⟩
  rw [if_neg holder]
  refine Or.inr ⟨hacceptable, fun held hheld => ?_, endpoint, rfl, ?_⟩
  · rw [hheld] at holder
    simpa using holder
  · by_cases hsame : directory.lookup[announced.member]? = some endpoint
    · rw [if_pos hsame]
      exact ⟨rfl, Or.inl ⟨hsame, rfl, rfl, rfl⟩⟩
    · rw [if_neg hsame]
      exact ⟨rfl, Or.inr ⟨hsame, rfl, rfl, rfl⟩⟩

/-- **One statement keeps the two stores in step.** -/
theorem inStep_learn (h : InStep sig urls statements directory) (announced : SignedAddress) :
    InStep sig urls (statements ++ [announced])
      (directory.learn sig (NodeAddr.toEndpointAddr urls) announced).2 := by
  intro member
  rcases learn_cases sig urls directory announced with
    ⟨-, hsame, holder⟩ | ⟨hacceptable, hnot, endpoint, hparse, hheld, hnews⟩
  · -- nothing is taken: it is not to be taken, or what is held is newer
    rw [hsame]
    rcases h member with ⟨newest, endpoint, hnewest, hparse, hheld, hlookup⟩ | ⟨hnone, hheld, hlookup⟩
    · refine Or.inl ⟨newest, endpoint, hnewest.concat ?_, hparse, hheld, hlookup⟩
      rintro ⟨rfl, hacceptable⟩
      obtain ⟨held, hheld', hlt⟩ := holder hacceptable
      obtain rfl := Option.some.inj (hheld.symm.trans hheld')
      exact hlt
    · refine Or.inr ⟨fun other hmem => ?_, hheld, hlookup⟩
      rcases List.mem_append.mp hmem with hold | hnew
      · exact hnone other hold
      · obtain rfl := List.mem_singleton.mp hnew
        rintro ⟨rfl, hacceptable⟩
        obtain ⟨held, hheld', -⟩ := holder hacceptable
        rw [hheld] at hheld'
        cases hheld'
  · rw [InStep] at h
    by_cases hother : announced.member = member
    · obtain rfl := hother
      refine Or.inl ⟨announced, endpoint, ⟨⟨rfl, hacceptable⟩, statements, [], rfl, ?_,
        fun _ hmem => absurd hmem List.not_mem_nil⟩, hparse, ?_, ?_⟩
      · -- whatever was held was the newest, and this is not older
        intro earlier hearlier hsaid
        rcases h announced.member with ⟨newest, _, hnewest, -, hheld', -⟩ | ⟨hnone, -⟩
        · exact (hnewest.le hearlier hsaid).trans (hnot newest hheld')
        · exact absurd hsaid (hnone earlier hearlier)
      · rw [hheld, Std.ExtTreeMap.getElem?_insert_self]
      · rcases hnews with ⟨hsame, -, hlookup, -⟩ | ⟨-, -, hlookup, -⟩
        · exact hlookup ▸ hsame
        · rw [hlookup, Std.ExtTreeMap.getElem?_insert_self]
    · have hheld' : (directory.learn sig (NodeAddr.toEndpointAddr urls)
          announced).2.signedAddresses[member]? = directory.signedAddresses[member]? := by
        rw [hheld, Std.ExtTreeMap.getElem?_insert, if_neg (by simpa using hother)]
      have hlookup' : (directory.learn sig (NodeAddr.toEndpointAddr urls)
          announced).2.lookup[member]? = directory.lookup[member]? := by
        rcases hnews with ⟨-, -, hlookup, -⟩ | ⟨-, -, hlookup, -⟩
        · rw [hlookup]
        · rw [hlookup, Std.ExtTreeMap.getElem?_insert, if_neg (by simpa using hother),
            Std.ExtTreeMap.getElem?_erase, if_neg (by simpa using hother)]
      rw [hheld', hlookup']
      rcases h member with ⟨newest, endpoint, hnewest, hrest⟩ | ⟨hnone, hrest⟩
      · exact Or.inl ⟨newest, endpoint, hnewest.concat fun hsaid => absurd hsaid.1 hother, hrest⟩
      · refine Or.inr ⟨fun announced' hmem hsaid => ?_, hrest⟩
        rcases List.mem_append.mp hmem with hold | hnew
        · exact hnone announced' hold hsaid
        · obtain rfl := List.mem_singleton.mp hnew
          exact hother hsaid.1

theorem learn_of_not_acceptable (directory : Directory (EndpointAddr Url))
    (h : ¬Acceptable sig (NodeAddr.toEndpointAddr urls) announced) :
    (directory.learn sig (NodeAddr.toEndpointAddr urls) announced).2 = directory := by
  rcases learn_cases sig urls directory announced with ⟨-, hsame, -⟩ | ⟨hacceptable, -⟩
  · exact hsame
  · exact absurd hacceptable h

/-- A position held never goes back. -/
theorem positionOf_learn (sig : AddressSigning) (urls : RelayUrls Url)
    (directory : Directory (EndpointAddr Url)) (announced : SignedAddress) {position : ℕ}
    (h : directory.positionOf member = some position) :
    ∃ position' ≥ position, (directory.learn sig (NodeAddr.toEndpointAddr urls)
      announced).2.positionOf member = some position' := by
  rcases learn_cases sig urls directory announced with
    ⟨-, hsame, -⟩ | ⟨-, hnot, endpoint, -, hheld, -⟩
  · exact ⟨position, le_rfl, by rw [hsame]; exact h⟩
  · rw [positionOf, hheld, Std.ExtTreeMap.getElem?_insert]
    split
    · rename_i hmember
      obtain rfl := Std.LawfulEqCmp.compare_eq_iff_eq.mp hmember
      obtain ⟨held, hheld', rfl⟩ := Option.map_eq_some_iff.mp h
      exact ⟨announced.applied, hnot held hheld', rfl⟩
    · exact ⟨position, le_rfl, h⟩

/-- **News is what changes an answer.** A statement is answered with `true`, and moves the
count everybody waits on, exactly if the network layer would then dial some member
elsewhere. -/
theorem learn_news (sig : AddressSigning) (urls : RelayUrls Url)
    (directory : Directory (EndpointAddr Url)) (announced : SignedAddress) :
    let learnt := directory.learn sig (NodeAddr.toEndpointAddr urls) announced
    (learnt.1 = .ok true ↔ ∃ member, learnt.2.resolve member ≠ directory.resolve member) ∧
      (learnt.2.learned ≠ directory.learned ↔
        ∃ member, learnt.2.resolve member ≠ directory.resolve member) := by
  have hmoves : (directory.learned + 1) % 2 ^ 64 ≠ directory.learned := by
    omega
  dsimp only
  simp only [resolve]
  rcases learn_cases sig urls directory announced with
    ⟨hfalse, hsame, -⟩ | ⟨-, -, endpoint, -, -, ⟨-, hfalse, hlookup, hlearned⟩ |
      ⟨hother, htrue, hlookup, hlearned⟩⟩
  · rw [hsame]
    simpa using hfalse
  · rw [hlookup, hlearned, hfalse]
    simp
  · have hnew : ∃ member : MemberId, (directory.learn sig (NodeAddr.toEndpointAddr urls)
        announced).2.lookup[member]? ≠ directory.lookup[member]? := by
      refine ⟨announced.member, ?_⟩
      rw [hlookup, Std.ExtTreeMap.getElem?_insert_self]
      exact hother.symm
    exact ⟨⟨fun _ => hnew, fun _ => htrue⟩, ⟨fun _ => hnew, fun _ => hlearned ▸ hmoves⟩⟩

/-! ## Any history -/

omit [DecidableEq Url] in
theorem inStep_empty : InStep sig urls [] (empty : Directory (EndpointAddr Url)) := fun _ =>
  Or.inr ⟨fun _ hmem => absurd hmem List.not_mem_nil, rfl, rfl⟩

theorem learnAll_concat (directory : Directory (EndpointAddr Url)) (statements : List SignedAddress)
    (announced : SignedAddress) :
    directory.learnAll sig urls (statements ++ [announced]) =
      ((directory.learnAll sig urls statements).learn sig (NodeAddr.toEndpointAddr urls)
        announced).2 := by
  rw [learnAll, List.foldl_append]
  rfl

/-- The two stores are in step with any history. -/
theorem inStep_learnAll (sig : AddressSigning) (urls : RelayUrls Url)
    (statements : List SignedAddress) :
    InStep sig urls statements (empty.learnAll sig urls statements) := by
  induction statements using List.reverseRecOn with
  | nil => exact inStep_empty
  | append_singleton statements announced ih =>
    rw [learnAll_concat]
    exact inStep_learn ih announced

/-- **The directory keeps each member's newest statement.** After any statements, in any
order: a member's position is the greatest that one of its statements was made at, of those
signed by it, saying an address and readable, and none if there is no such statement, so
that the order they came in makes no difference to it; its address is that of the last of
those at that position, spelled as the network layer spells a relay's URL. One more
statement never takes a position back, changes nothing if it cannot be taken, and is news
exactly if some member is then dialled elsewhere. -/
theorem directory_keeps_newest (sig : AddressSigning) (urls : RelayUrls Url)
    (statements : List SignedAddress) :
    let directory := empty.learnAll sig urls statements
    (∀ member,
      (∀ position, directory.positionOf member = some position ↔
        IsGreatest {applied | ∃ announced ∈ statements, SaidBy sig urls member announced ∧
          announced.applied = applied} position) ∧
      (directory.positionOf member = none ↔
        ∀ announced ∈ statements, ¬SaidBy sig urls member announced) ∧
      (∀ reordered, List.Perm reordered statements →
        (empty.learnAll sig urls reordered).positionOf member = directory.positionOf member) ∧
      (∀ position, directory.positionOf member = some position →
        ∃ newest endpoint, Newest sig urls statements member newest ∧ newest.applied = position ∧
          newest.said.toEndpointAddr urls member = .ok endpoint ∧
          directory.addressOf urls.dialling member = some (.ofEndpointAddr urls endpoint) ∧
          (newest.said.Normal urls → directory.addressOf urls.dialling member = some newest.said)) ∧
      (directory.positionOf member = none → directory.addressOf urls.dialling member = none)) ∧
    ∀ announced,
      let learnt := directory.learn sig (NodeAddr.toEndpointAddr urls) announced
      (¬Acceptable sig (NodeAddr.toEndpointAddr urls) announced → learnt.2 = directory) ∧
      (∀ member position, directory.positionOf member = some position →
        ∃ position' ≥ position, learnt.2.positionOf member = some position') ∧
      (learnt.1 = .ok true ↔ ∃ member, learnt.2.resolve member ≠ directory.resolve member) ∧
      (learnt.2.learned ≠ directory.learned ↔
        ∃ member, learnt.2.resolve member ≠ directory.resolve member) := by
  dsimp only
  have hstep := inStep_learnAll sig urls statements
  refine ⟨fun member => ⟨fun position => hstep.positionOf_eq_some, hstep.positionOf_eq_none,
    fun reordered hperm => ?_, fun position hposition => ?_, hstep.addressOf_eq_none⟩,
    fun announced => ⟨learn_of_not_acceptable _, fun member position => positionOf_learn sig urls _ _,
      learn_news sig urls _ announced⟩⟩
  · refine Option.ext fun position => ?_
    rw [(inStep_learnAll sig urls reordered).positionOf_eq_some, hstep.positionOf_eq_some]
    simp only [hperm.mem_iff]
  · obtain ⟨newest, endpoint, hnewest, hposition', hparse, haddress⟩ :=
      hstep.addressOf_eq_some hposition
    refine ⟨newest, endpoint, hnewest, hposition', hparse, haddress, fun hnormal => ?_⟩
    rw [haddress, NodeAddr.ofEndpointAddr_of_normal hparse hnormal]

end Directory

end Distlib
