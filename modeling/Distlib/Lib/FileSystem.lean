import Mathlib.Logic.Function.Basic
import Mathlib.Data.List.Basic
import Mathlib.Order.Basic

/-!
# Files and their names

A file system: names stand for files or directories, and a file is its bytes, whatever it is
called. So a file that is being written can be renamed meanwhile, and one name can be made to
stand for another file, while whoever has the file open goes on writing to the same one.

The operations are those of a program that writes a file beside where it is to be and then moves
it there: `create`, `write`, `rename` and `remove`. What each does to the file at a name is one
lemma of `fileAt`, and what it does to the bytes one of `bytes`. A file that is not there yet
has a number no name stands for (`fresh`), so a new file is no old one.
-/

universe u v

/-- What a name stands for. -/
inductive Entry : Type where
  | file (inode : ℕ)
  | directory
  deriving DecidableEq

/-- Names of type `P`, and files of bytes of type `B`. -/
structure FileSystem (P : Type u) (B : Type v) where
  entries : P → Option Entry
  bytes : ℕ → List B
  next : ℕ
  fresh : ∀ path inode, entries path = some (.file inode) → inode < next

namespace FileSystem

variable {P : Type u} [DecidableEq P] {B : Type v} [Zero B] {files later : FileSystem P B}
  {path src dst other : P} {inode found : ℕ}

/-! ## Looking -/

/-- The file a name stands for. -/
def fileAt (files : FileSystem P B) (path : P) : Option ℕ :=
  match files.entries path with
  | some (.file inode) => some inode
  | _ => none

/-- Whether a name stands for anything. -/
def isThere (files : FileSystem P B) (path : P) : Bool := (files.entries path).isSome

omit [DecidableEq P] [Zero B] in
theorem fileAt_eq_some_iff : files.fileAt path = some inode ↔ files.entries path = some (.file inode) := by
  rw [fileAt]
  split
  · rename_i found hfound
    rw [hfound]
    simp
  · rename_i hnone
    simp only [reduceCtorEq, false_iff]
    exact hnone inode

omit [DecidableEq P] [Zero B] in
theorem lt_next (h : files.fileAt path = some inode) : inode < files.next :=
  files.fresh path inode (fileAt_eq_some_iff.mp h)

/-! ## Changing -/

/-- Makes a name stand for something else. -/
def point (files : FileSystem P B) (path : P) (entry : Option Entry)
    (hfresh : ∀ inode, entry = some (.file inode) → inode < files.next) : FileSystem P B :=
  { files with
    entries := Function.update files.entries path entry
    fresh := by
      intro name found hfound
      rw [Function.update_apply] at hfound
      split at hfound
      · exact hfresh found hfound
      · exact files.fresh name found hfound }

/-- A new file, empty, that no name stands for yet. -/
def newFile (files : FileSystem P B) : FileSystem P B :=
  { files with
    bytes := Function.update files.bytes files.next []
    next := files.next + 1
    fresh := fun name found hfound => Nat.lt_succ_of_lt (files.fresh name found hfound) }

/-- Opens a file for writing, emptied, and makes it if there is none. -/
def create (files : FileSystem P B) (path : P) : Option (ℕ × FileSystem P B) :=
  match files.entries path with
  | some .directory => none
  | some (.file inode) => some (inode, { files with bytes := Function.update files.bytes inode [] })
  | none => some (files.next, files.newFile.point path (some (.file files.next)) fun _ heq => by
      cases heq
      exact Nat.lt_succ_self _)

/-- The bytes `old` once `chunk` has been written at `pos`. -/
def writeAt (old : List B) (pos : ℕ) (chunk : List B) : List B :=
  old.take pos ++ List.replicate (pos - old.length) 0 ++ chunk ++ old.drop (pos + chunk.length)

/-- Writes to an open file. -/
def write (files : FileSystem P B) (inode pos : ℕ) (chunk : List B) : FileSystem P B :=
  { files with bytes := Function.update files.bytes inode (writeAt (files.bytes inode) pos chunk) }

/-- Moves a file to another name at once, in the place of a file that has it. -/
def rename (files : FileSystem P B) (src dst : P) : Option (FileSystem P B) :=
  match hsrc : files.fileAt src with
  | none => none
  | some inode =>
    if files.entries dst = some .directory then none
    else some ((files.point src none fun _ heq => by cases heq).point dst (some (.file inode))
      fun found heq => by
        cases heq
        exact show inode < files.next from lt_next hsrc)

/-- Takes a file's name away. -/
def remove (files : FileSystem P B) (path : P) : Option (FileSystem P B) :=
  match files.fileAt path with
  | none => none
  | some _ => some (files.point path none fun _ heq => by cases heq)

/-! ## What is where afterwards -/

omit [Zero B] in
theorem fileAt_point {entry : Option Entry}
    {hfresh : ∀ inode, entry = some (.file inode) → inode < files.next} :
    (files.point path entry hfresh).fileAt other = some inode ↔
      if other = path then entry = some (.file inode) else files.fileAt other = some inode := by
  rw [fileAt_eq_some_iff, point]
  dsimp only
  rw [Function.update_apply]
  split
  · exact Iff.rfl
  · exact fileAt_eq_some_iff.symm

omit [Zero B] in
/-- A file that is opened where there is none is a new one, and everything else stays. -/
theorem create_new (hnone : files.fileAt path = none) (h : files.create path = some (inode, later)) :
    inode = files.next ∧ later.next = files.next + 1 ∧ later.bytes inode = [] ∧
      (∀ found, found ≠ inode → later.bytes found = files.bytes found) ∧
      ∀ other found, later.fileAt other = some found ↔
        if other = path then found = inode else files.fileAt other = some found := by
  rw [create] at h
  split at h
  · cases h
  · rename_i there hthere
    rw [fileAt_eq_some_iff.mpr hthere] at hnone
    cases hnone
  · cases h
    refine ⟨rfl, rfl, Function.update_self .., fun found hne => Function.update_of_ne hne .., ?_⟩
    intro other found
    rw [fileAt_point]
    split
    · simp [eq_comm]
    · exact Iff.rfl

omit [DecidableEq P] in
theorem bytes_write_self {pos : ℕ} {chunk : List B} :
    (files.write inode pos chunk).bytes inode = writeAt (files.bytes inode) pos chunk :=
  Function.update_self ..

omit [DecidableEq P] in
theorem bytes_write_of_ne {pos : ℕ} {chunk : List B} (hne : found ≠ inode) :
    (files.write inode pos chunk).bytes found = files.bytes found :=
  Function.update_of_ne hne ..

omit [DecidableEq P] in
@[simp] theorem fileAt_write {pos : ℕ} {chunk : List B} :
    (files.write inode pos chunk).fileAt = files.fileAt := rfl

/-- Writing on where one has got to. -/
theorem writeAt_take {blob : List B} {pos count : ℕ} (hpos : pos ≤ blob.length) :
    writeAt (blob.take pos) pos ((blob.drop pos).take count) = blob.take (pos + count) := by
  have hlength : (blob.take pos).length = pos := List.length_take_of_le hpos
  have hpast : ∀ chunk : List B, (blob.take pos).drop (pos + chunk.length) = [] := fun chunk =>
    List.drop_eq_nil_of_le (Nat.le_trans (Nat.le_of_eq hlength) (Nat.le_add_right _ _))
  rw [writeAt, hpast, hlength, Nat.sub_self, List.replicate_zero, List.append_nil, List.append_nil,
    List.take_take, Nat.min_self, List.take_add]

omit [Zero B] in
/-- A file that has been moved is at its new name, and nowhere else has changed. -/
theorem rename_moved (hsrc : files.fileAt src = some inode)
    (h : files.rename src dst = some later) :
    later.bytes = files.bytes ∧ later.next = files.next ∧ ∀ other found,
      later.fileAt other = some found ↔
        if other = dst then found = inode else other ≠ src ∧ files.fileAt other = some found := by
  rw [rename] at h
  split at h
  · cases h
  · rename_i moved hmoved
    split at h
    · cases h
    · cases h
      obtain rfl : moved = inode := Option.some.inj (hmoved.symm.trans hsrc)
      refine ⟨rfl, rfl, ?_⟩
      intro other found
      rw [fileAt_point, fileAt_point]
      split
      · simp [eq_comm]
      · split
        · rename_i heq
          simp [heq]
        · rename_i heq
          simp [heq]

omit [Zero B] in
theorem remove_gone (h : files.remove path = some later) :
    later.bytes = files.bytes ∧ later.next = files.next ∧ ∀ other found,
      later.fileAt other = some found ↔ other ≠ path ∧ files.fileAt other = some found := by
  rw [remove] at h
  split at h
  · cases h
  · cases h
    refine ⟨rfl, rfl, ?_⟩
    intro other found
    rw [fileAt_point]
    split
    · rename_i heq
      simp [heq]
    · rename_i heq
      simp [heq]

end FileSystem
