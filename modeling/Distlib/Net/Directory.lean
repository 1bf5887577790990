import Distlib.Consensus.Event

/-!
# Where members say they are

A member signs its address together with how far it has got through the log, and
the statement travels by gossip, relayed, repeated and out of order. A peer keeps
one statement a member. Which of two is the newer it tells by that position and
by nothing else: a statement is dropped when its position is below that of the
one held, and replaces it otherwise, a tie included.

So the rule is as good as the positions a node signs (`learn_newer`): it never
drops the later of two statements, *if* a node's position never goes back.

The encoding and the signature check are parameters, as they are of membership
events, and so is the parsing of a relay's URL into what the network layer dials.
-/

namespace Distlib

/-- Domain separation for address signatures: `distlib.address.v1`. -/
def addressDomain : List UInt8 := "distlib.address.v1".toUTF8.toList

/-- What the program takes from its encoder and its signature scheme. -/
structure AddressSigning where
  postcard : MemberId → NodeAddr → ℕ → Except String (List UInt8)
  /-- whether a signature over the bytes is by the holder of the key -/
  verify : MemberId → List UInt8 → Signature → Bool

inductive CoreError : Type where
  | badAddressSignature (member : MemberId)
  | addressEncoding (message : String)
  deriving DecidableEq

/-- Where a member says it is, signed by that member. -/
structure SignedAddress where
  member : MemberId
  /-- reached only through `SignedAddress.addr` -/
  said : NodeAddr
  /-- the announcer's log position when it said this -/
  applied : ℕ
  signature : Signature
  deriving DecidableEq

namespace SignedAddress

variable (sig : AddressSigning)

/-- The exact bytes a signature covers. -/
def signingPayload (member : MemberId) (addr : NodeAddr) (applied : ℕ) :
    Except CoreError (List UInt8) :=
  match sig.postcard member addr applied with
  | .error message => .error (.addressEncoding message)
  | .ok bytes => .ok (addressDomain ++ bytes)

/-- Checks the signature against the member it names. -/
def verify (signed : SignedAddress) : Except CoreError Unit :=
  match signingPayload sig signed.member signed.said signed.applied with
  | .error error => .error error
  | .ok payload =>
    if sig.verify signed.member payload signed.signature then .ok ()
    else .error (.badAddressSignature signed.member)

/-- The address, once its signature checks out. -/
def addr (signed : SignedAddress) : Except CoreError NodeAddr :=
  match signed.verify sig with
  | .error error => .error error
  | .ok () => .ok signed.said

end SignedAddress

/-! ## The directory -/

inductive NetError : Type where
  | badAddress (member : MemberId) (source : CoreError)
  deriving DecidableEq

/-- What the network layer dials, and how a node's address is written as one. -/
structure Dialling (Endpoint : Type) where
  toEndpointAddr : NodeAddr → MemberId → Except String Endpoint
  /-- the inverse of `toEndpointAddr`, losing the member id -/
  addr : Endpoint → NodeAddr
  id : Endpoint → MemberId

/-- What a node holds about where members are; `Endpoint` is what the network
layer dials. -/
structure Directory (Endpoint : Type) where
  lookup : OrdMap MemberId Endpoint
  signedAddresses : OrdMap MemberId SignedAddress
  /-- moves whenever an answer changes -/
  learned : ℕ

namespace Directory

variable {Endpoint : Type} [DecidableEq Endpoint]

/-- Records what `announced` says, if it is not older than what is held; answers
whether this node's picture of the group changed. -/
def learn (sig : AddressSigning) (toEndpointAddr : NodeAddr → MemberId → Except String Endpoint)
    (directory : Directory Endpoint) (announced : SignedAddress) :
    Except NetError Bool × Directory Endpoint :=
  let member := announced.member
  match announced.addr sig with
  | .error source => (.error (.badAddress member source), directory)
  | .ok addr =>
    -- an address with nothing in it must not retire a good one
    if addr.relay.isNone ∧ addr.direct = ∅ then (.ok false, directory)
    else
      match toEndpointAddr addr member with
      | .error _ => (.ok false, directory)
      | .ok endpointAddr =>
        if directory.signedAddresses[member]?.any fun held => announced.applied < held.applied then
          (.ok false, directory)
        else
          let signedAddresses := directory.signedAddresses.insert member announced
          if directory.lookup[member]? = some endpointAddr then
            -- the position still advances
            (.ok false, { directory with signedAddresses })
          else
            (.ok true,
              { lookup := (directory.lookup.erase member).insert member endpointAddr
                signedAddresses
                learned := (directory.learned + 1) % 2 ^ 64 })

/-- Where a member was last heard to be. -/
def addressOf {Endpoint : Type} (dial : Dialling Endpoint) (directory : Directory Endpoint)
    (member : MemberId) : Option NodeAddr :=
  directory.lookup[member]?.map dial.addr

/-- The statement could be taken: it is signed by the member it is about, and
says an address that can be dialled. -/
def Acceptable (sig : AddressSigning)
    (toEndpointAddr : NodeAddr → MemberId → Except String Endpoint) (announced : SignedAddress) :
    Prop :=
  announced.verify sig = .ok () ∧ ¬(announced.said.relay.isNone ∧ announced.said.direct = ∅) ∧
    (toEndpointAddr announced.said announced.member).isOk

variable {sig : AddressSigning} {toEndpointAddr : NodeAddr → MemberId → Except String Endpoint}

/-- **What decides between two statements**: an acceptable one is held afterwards
if its position is not below that of the one held before. -/
theorem learn_newer (directory : Directory Endpoint) {announced : SignedAddress}
    (hacceptable : Acceptable sig toEndpointAddr announced)
    (hnot : ∀ held ∈ directory.signedAddresses[announced.member]?, held.applied ≤ announced.applied) :
    (directory.learn sig toEndpointAddr announced).2.signedAddresses[announced.member]? =
      some announced := by
  obtain ⟨hverified, hannounced, hparses⟩ := hacceptable
  have haddr : announced.addr sig = .ok announced.said := by
    rw [SignedAddress.addr, hverified]
  have hfresh : (directory.signedAddresses[announced.member]?.any
      fun held => announced.applied < held.applied) = false := by
    rcases hheld : directory.signedAddresses[announced.member]? with _ | held
    · rfl
    · simpa using hnot held hheld
  rw [learn, haddr]
  simp only [hannounced, if_false]
  rcases hparse : toEndpointAddr announced.said announced.member with error | endpointAddr
  · rw [hparse] at hparses
    cases hparses
  · simp only [hfresh, Bool.false_eq_true, if_false]
    split <;> simp

/-- A statement whose position is below that of the one held is dropped. -/
theorem learn_older (directory : Directory Endpoint) {announced held : SignedAddress}
    (hheld : directory.signedAddresses[announced.member]? = some held)
    (holder : announced.applied < held.applied) :
    (directory.learn sig toEndpointAddr announced).2 = directory := by
  rw [learn]
  split
  · rfl
  · dsimp only
    split
    · rfl
    · split
      · rfl
      · simp [hheld, holder]

end Directory

end Distlib
