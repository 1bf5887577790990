import Distlib.Lib.OrdMap

/-!
# Identifiers and addresses

The newtypes the whole system is keyed by. Every identifier is 32 raw bytes, a
member's being its public key; ids compare by their bytes, which is the order
of the 256-bit number the bytes spell, most significant first. So an id is
kept here as that number, and the order of a map keyed by ids is the order the
program iterates it in.

Not every 32 bytes are a public key. The model admits them all, since no rule
of the program looks inside a key except the signature check.
-/

namespace Distlib

/-- A member of the group: its public key. -/
structure MemberId where
  /-- the 32 bytes, as one number -/
  key : BitVec 256
  deriving DecidableEq, Repr

/-- Identifies one item of the catalogue. -/
structure ItemId where
  /-- the 32 bytes, as one number -/
  hash : BitVec 256
  deriving DecidableEq, Repr

/-- Identifies one group, derived from its founding event. -/
structure GroupId where
  /-- the 32 bytes, as one number -/
  hash : BitVec 256
  deriving DecidableEq, Repr

/-- The hash of a blob's bytes. -/
structure ContentHash where
  /-- the 32 bytes, as one number -/
  hash : BitVec 256
  deriving DecidableEq, Repr

/-- One of a member's bookmarks on an item: 16 random bytes. -/
structure BookmarkId where
  /-- the 16 bytes, as one number -/
  id : BitVec 128
  deriving DecidableEq, Repr

/-- A wish: 32 random bytes. -/
structure WishId where
  /-- the 32 bytes, as one number -/
  id : BitVec 256
  deriving DecidableEq, Repr

/-! ## The byte order of ids -/

namespace MemberId

instance : Ord MemberId := ⟨compareOn MemberId.key⟩

instance : Std.TransOrd MemberId :=
  inferInstanceAs (Std.TransCmp (compareOn MemberId.key))

instance : Std.LawfulEqOrd MemberId where
  eq_of_compare {a b} h := by
    have hkey : compare a.key b.key = .eq := h
    rw [Std.LawfulEqCmp.compare_eq_iff_eq] at hkey
    cases a
    cases b
    exact congrArg MemberId.mk hkey

end MemberId

namespace ItemId

instance : Ord ItemId := ⟨compareOn ItemId.hash⟩

instance : Std.TransOrd ItemId :=
  inferInstanceAs (Std.TransCmp (compareOn ItemId.hash))

instance : Std.LawfulEqOrd ItemId where
  eq_of_compare {a b} h := by
    have hhash : compare a.hash b.hash = .eq := h
    rw [Std.LawfulEqCmp.compare_eq_iff_eq] at hhash
    cases a
    cases b
    exact congrArg ItemId.mk hhash

end ItemId

namespace ContentHash

instance : Ord ContentHash := ⟨compareOn ContentHash.hash⟩

instance : Std.TransOrd ContentHash :=
  inferInstanceAs (Std.TransCmp (compareOn ContentHash.hash))

instance : Std.LawfulEqOrd ContentHash where
  eq_of_compare {a b} h := by
    have hhash : compare a.hash b.hash = .eq := h
    rw [Std.LawfulEqCmp.compare_eq_iff_eq] at hhash
    cases a
    cases b
    exact congrArg ContentHash.mk hhash

end ContentHash

namespace BookmarkId

instance : Ord BookmarkId := ⟨compareOn BookmarkId.id⟩

instance : Std.TransOrd BookmarkId :=
  inferInstanceAs (Std.TransCmp (compareOn BookmarkId.id))

instance : Std.LawfulEqOrd BookmarkId where
  eq_of_compare {a b} h := by
    have hid : compare a.id b.id = .eq := h
    rw [Std.LawfulEqCmp.compare_eq_iff_eq] at hid
    cases a
    cases b
    exact congrArg BookmarkId.mk hid

end BookmarkId

namespace WishId

instance : Ord WishId := ⟨compareOn WishId.id⟩

instance : Std.TransOrd WishId :=
  inferInstanceAs (Std.TransCmp (compareOn WishId.id))

instance : Std.LawfulEqOrd WishId where
  eq_of_compare {a b} h := by
    have hid : compare a.id b.id = .eq := h
    rw [Std.LawfulEqCmp.compare_eq_iff_eq] at hid
    cases a
    cases b
    exact congrArg WishId.mk hid

end WishId

/-! ## Where a member is reached -/

/-- A socket address, of either family. -/
inductive SocketAddr : Type where
  /-- an IPv4 address and port -/
  | v4 : BitVec 32 → UInt16 → SocketAddr
  /-- an IPv6 address, port, flow information and scope -/
  | v6 : BitVec 128 → UInt16 → UInt32 → UInt32 → SocketAddr
  deriving DecidableEq, Repr

/-- Where to reach a member. Empty means "dial by id alone". -/
structure NodeAddr where
  /-- relay to reach the node through, as a URL that may no longer parse -/
  relay : Option String
  /-- socket addresses to try directly; a set, so their order is no part of it -/
  direct : Finset SocketAddr
  deriving DecidableEq

/-- A node reachable only through address lookup. -/
def NodeAddr.lookupOnly : NodeAddr := ⟨none, ∅⟩

instance : Inhabited NodeAddr := ⟨NodeAddr.lookupOnly⟩

end Distlib
