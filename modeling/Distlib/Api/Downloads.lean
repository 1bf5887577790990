import Distlib.Api.Tasks
import Distlib.Core.Catalogue
import Distlib.Lib.FileSystem

/-!
# Where downloads write

A download first works out where each of its files goes, refusing what is there already unless
it is that very file, and then fetches and writes them one after another. A file is not written
where it goes, but beside it under a hidden name, and is moved into place once it is complete. So
what is at its place is always a whole file.

Between the look and the move any amount of time passes, and other downloads do the same in the
same directory. The names come from other members, and the hidden names are names like others:
nothing looks at whether one is taken, by a file of the operator's, by a file of this download
or by another download that writes there at the same time. Opening the hidden file empties
whatever has its name, and the move puts the file in the place of whatever is there.

A step here is one thing one download does, whichever it is. What is to hold is that no step
touches what was there before its download chose its targets (`Spares`), and that what a
finished download has reported is there (`Holds`); `World.clear` says that a step finds the
names it uses free.

The hash of bytes is a parameter. What the store gives out as a blob has the hash it was asked
for, and where links lead is not modelled: names stand for files and directories.
-/

namespace Distlib

open OrdMap GuardedRun
open Tasks (PathBuf Source Downloaded)

namespace Downloads

/-- The file system downloads write to. -/
abbrev Files := FileSystem PathBuf UInt8

/-- Why a download is refused, or fails. -/
inductive DownloadError : Type where
  /-- `{item_id} has no file {hash}` -/
  | noSuchFile (itemId : ItemId) (hash : ContentHash)
  /-- `{item_id}: this item has no files yet` -/
  | noFiles (itemId : ItemId)
  /-- `{hash}: {filename} is not a filename this can write` -/
  | notAFilename (hash : ContentHash) (filename : String)
  /-- `{hash} and {other} are both called {target}; download them one at a time` -/
  | sameName (hash other : ContentHash) (target : PathBuf)
  /-- `{target} already exists and is not this file` -/
  | alreadyExists (target : PathBuf)
  /-- `no room for this download`, by so many bytes -/
  | noRoom (shortBy : ℕ)
  /-- what the blobs answered -/
  | net (message : String)
  /-- a blob could not be written out -/
  | exportFailed (hash : ContentHash) (target : PathBuf)
  deriving DecidableEq

/-! ## Choosing the targets -/

/-- The last component of a path, if that is a name. -/
def fileName (filename : String) : Option String :=
  let components := ((filename.toList.splitOn '/').map String.ofList).filter fun component =>
    component ≠ "" ∧ component ≠ "."
  match components.getLast? with
  | none => none
  | some component => if component = ".." then none else some component

/-- Where an export writes `target` before it is complete. -/
def partialOf (target : PathBuf) : PathBuf :=
  target.dropLast ++ ["." ++ target.getLastD "" ++ ".partial"]

/-- One file a download is to write. -/
structure Target where
  hash : ContentHash
  record : FileRecord
  path : PathBuf
  /-- already at `path`, byte for byte -/
  inPlace : Bool
  deriving DecidableEq

/-- The files of an item a download asks for: the one `file` names, or all. -/
def filesToDownload (itemId : ItemId) (files : OrdMap ContentHash FileRecord) :
    Option ContentHash → Except DownloadError (List (ContentHash × FileRecord))
  | some hash =>
    match files[hash]? with
    | none => .error (.noSuchFile itemId hash)
    | some record => .ok [(hash, record)]
  | none => if files.isEmpty then .error (.noFiles itemId) else .ok files.toList

variable (blake3 : List UInt8 → ContentHash)

/-- Whether the file at `path` is the one meant, byte for byte. -/
def alreadyThere (files : Files) (path : PathBuf) (hash : ContentHash) (size : UInt64) : Bool :=
  match files.fileAt path with
  | none => false
  | some inode =>
    decide ((files.bytes inode).length = size.toNat) && decide (blake3 (files.bytes inode) = hash)

/-- Where in `dest` one more file goes, after those already `taken`. -/
def targetIn (files : Files) (dest : PathBuf) (taken : List Target) (hash : ContentHash)
    (record : FileRecord) : Except DownloadError Target :=
  match fileName record.filename with
  | none => .error (.notAFilename hash record.filename)
  | some name =>
    let target := dest ++ [name]
    match taken.find? (·.path = target) with
    | some other => .error (.sameName hash other.hash target)
    | none =>
      let inPlace := files.isThere target
      if inPlace && !alreadyThere blake3 files target hash record.size then .error (.alreadyExists target)
      else .ok ⟨hash, record, target, inPlace⟩

/-! ## Writing the files -/

/-- What the blobs answer about a file. -/
structure Answers where
  keep : Except String Unit
  has : Except String Bool
  fetch : Except String Unit
  /-- the providers were asked for again -/
  refresh : Bool
  fetchAgain : Except String Unit

/-- Whether the one refresh of a download is spent afterwards, and where the file has come from. -/
def fetched (spent : Bool) (answers : Answers) : Bool × Except DownloadError Source :=
  match answers.keep, answers.has, answers.fetch with
  | .error message, _, _ => (spent, .error (.net message))
  | .ok (), .error message, _ => (spent, .error (.net message))
  | .ok (), .ok true, _ => (spent, .ok .store)
  | .ok (), .ok false, .ok () => (spent, .ok .network)
  | .ok (), .ok false, .error failure =>
    if !spent && answers.refresh then
      match answers.fetchAgain with
      | .error message => (true, .error (.net message))
      | .ok () => (true, .ok .network)
    else (true, .error (.net failure))

/-- A blob being written out. -/
structure Copy where
  inode : ℕ
  blob : List UInt8
  /-- how many bytes of it are written -/
  written : ℕ
  deriving DecidableEq

/-- Where a download has got to. -/
inductive Stage : Type where
  /-- working out where these go -/
  | choosing (wanted : List (ContentHash × FileRecord))
  /-- between two files -/
  | ready
  /-- the blob is here, and is to be written out -/
  | exporting (target : Target) (source : Source)
  | copying (target : Target) (source : Source) (copy : Copy)
  /-- the export has failed, after it opened this file if any; its hidden file is to be removed -/
  | cleaning (target : Target) (inode : Option ℕ) (error : DownloadError)
  | finished
  | failed (error : DownloadError)
  deriving DecidableEq

/-- Where a download begins. -/
def Stage.first (itemId : ItemId) (files : OrdMap ContentHash FileRecord) (file : Option ContentHash) : Stage :=
  match filesToDownload itemId files file with
  | .error error => .failed error
  | .ok wanted => .choosing wanted

structure Download where
  dest : PathBuf
  stage : Stage
  /-- chosen, and not come to yet -/
  targets : List Target
  /-- the files there were before it chose any -/
  before : PathBuf → Option ℕ
  /-- reported so far -/
  files : List Downloaded
  /-- of the bytes of all files -/
  bytesDone : ℕ
  spent : Bool

/-- One thing a download does, with what the rest of the world makes of it. -/
inductive Action : Type where
  /-- looks at where one more file goes -/
  | checks
  /-- asks for room for all of them -/
  | makesRoom (shortBy : Option ℕ)
  /-- comes to the next file, and fetches it if it is not in place -/
  | fetches (answers : Answers)
  /-- the store opens the hidden file to write `blob` to it, if it gets that far -/
  | opens (blob : Option (List UInt8))
  /-- the store writes so many bytes more -/
  | writes (count : ℕ)
  /-- the store gives up -/
  | breaks
  /-- moves the hidden file into place; `false` if the system will not -/
  | renames (ok : Bool)
  /-- removes the hidden file; `false` if the system will not -/
  | removes (ok : Bool)

namespace Download

/-- Another file is where it goes. -/
def fileWritten (download : Download) (target : Target) (source : Source) : Download :=
  { download with
    bytesDone := download.bytesDone + target.record.size.toNat
    files := download.files ++ [⟨target.hash, target.record.filename, target.path, source⟩]
    stage := .ready }

/-- Why the export of `target` failed. -/
def exportFailed (target : Target) : DownloadError := .exportFailed target.hash target.path

/-- One thing a download does. -/
def step (files : Files) (download : Download) : Action → Files × Download
  | .checks =>
    match download.stage with
    | .choosing ((hash, record) :: wanted) =>
      match targetIn blake3 files download.dest download.targets hash record with
      | .error error => (files, { download with stage := .failed error })
      | .ok target => (files, { download with
          targets := download.targets ++ [target], stage := .choosing wanted })
    | _ => (files, download)
  | .makesRoom shortBy =>
    match download.stage, shortBy with
    | .choosing [], none => (files, { download with stage := .ready })
    | .choosing [], some shortBy => (files, { download with stage := .failed (.noRoom shortBy) })
    | _, _ => (files, download)
  | .fetches answers =>
    match download.stage, download.targets with
    | .ready, [] => (files, { download with stage := .finished })
    | .ready, target :: targets =>
      if target.inPlace then (files, { download with targets }.fileWritten target .destination)
      else
        match fetched download.spent answers with
        | (spent, .error error) => (files, { download with spent, stage := .failed error })
        | (spent, .ok source) => (files, { download with spent, targets, stage := .exporting target source })
    | _, _ => (files, download)
  | .opens blob =>
    match download.stage, blob with
    | .exporting target _, none =>
      (files, { download with stage := .cleaning target none (exportFailed target) })
    | .exporting target source, some blob =>
      if blake3 blob = target.hash then
        match files.create (partialOf target.path) with
        | none => (files, { download with stage := .cleaning target none (exportFailed target) })
        | some (inode, files) => (files, { download with stage := .copying target source ⟨inode, blob, 0⟩ })
      else (files, download)
    | _, _ => (files, download)
  | .writes count =>
    match download.stage with
    | .copying target source copy =>
      let chunk := (copy.blob.drop copy.written).take count
      (files.write copy.inode copy.written chunk,
        { download with stage := .copying target source { copy with written := copy.written + chunk.length } })
    | _ => (files, download)
  | .breaks =>
    match download.stage with
    | .copying target _ copy =>
      (files, { download with stage := .cleaning target (some copy.inode) (exportFailed target) })
    | _ => (files, download)
  | .renames ok =>
    match download.stage with
    | .copying target source copy =>
      if copy.written = copy.blob.length then
        match if ok then files.rename (partialOf target.path) target.path else none with
        | none => (files, { download with stage := .cleaning target (some copy.inode) (exportFailed target) })
        | some files => (files, download.fileWritten target source)
      else (files, download)
    | _ => (files, download)
  | .removes ok =>
    match download.stage with
    | .cleaning target _ error =>
      ((if ok then files.remove (partialOf target.path) else none).getD files,
        { download with stage := .failed error })
    | _ => (files, download)

end Download

/-! ## Downloads beside one another -/

structure World where
  files : Files
  downloads : OrdMap ℕ Download

inductive Step : Type where
  /-- somebody asks for a file of an item, or for all, to be written to `dest` -/
  | begins (id : ℕ) (itemId : ItemId) (files : OrdMap ContentHash FileRecord) (file : Option ContentHash)
      (dest : PathBuf)
  | does (id : ℕ) (action : Action)

namespace World

def step (world : World) : Step → World
  | .begins id itemId files file dest =>
    if id ∈ world.downloads then world
    else
      { world with
        downloads := world.downloads.insert id
          ⟨dest, .first itemId files file, [], world.files.fileAt, [], 0, false⟩ }
  | .does id action =>
    match world.downloads[id]? with
    | none => world
    | some download =>
      let (files, download) := download.step blake3 world.files action
      ⟨files, world.downloads.insert id download⟩

/-- A node that has just started, with these files about. -/
def start (files : Files) : World := ⟨files, ∅⟩

end World

/-! ## What is to hold -/

/-- The hidden file an export has opened, with the target it is for. -/
def Stage.part : Stage → Option (Target × ℕ)
  | .copying target _ copy => some (target, copy.inode)
  | .cleaning target (some inode) _ => some (target, inode)
  | _ => none

def Download.part (download : Download) : Option (Target × ℕ) := download.stage.part

/-- Whether an export has this file open. -/
def World.isOpen (world : World) (inode : ℕ) : Bool :=
  world.downloads.toList.any fun entry => entry.2.part.map Prod.snd = some inode

/-- A step leaves what was there before the download it is of chose its targets. -/
def Spares (world : World) : Step → Prop
  | .begins .. => True
  | .does id action =>
    ∀ download, world.downloads[id]? = some download → ∀ path inode,
      download.before path = some inode → world.files.fileAt path = some inode →
        (world.step blake3 (.does id action)).files.fileAt path = some inode ∧
          (world.step blake3 (.does id action)).files.bytes inode = world.files.bytes inode

/-- What a finished download reports is at its path, with exactly the bytes of its hash. -/
def Holds (world : World) : Prop :=
  ∀ (id : ℕ) (download : Download), world.downloads[id]? = some download → download.stage = .finished →
    ∀ file ∈ download.files, ∃ inode, world.files.fileAt file.path = some inode ∧
      blake3 (world.files.bytes inode) = file.file

/-- Whether a download finds the names it uses free. What it finds in place is no export's hidden
file; at the name of its own hidden file there is no file when it opens it, and no file but its
own when it removes it; and what it moves that file over, if anything, is no export's hidden
file and has the hash already. -/
def Download.clear (files : Files) (isOpen : ℕ → Bool) (download : Download) : Action → Bool
  | .checks =>
    match download.stage with
    | .choosing ((hash, record) :: _) =>
      match targetIn blake3 files download.dest download.targets hash record with
      | .error _ => true
      | .ok target => !target.inPlace || (files.fileAt target.path).all fun found => !isOpen found
    | _ => true
  | .opens (some _) =>
    match download.stage with
    | .exporting target _ => (files.fileAt (partialOf target.path)).isNone
    | _ => true
  | .renames true =>
    match download.stage with
    | .copying target _ copy =>
      decide (copy.written ≠ copy.blob.length) || (files.fileAt target.path).all fun found =>
        !isOpen found && decide (blake3 (files.bytes found) = target.hash)
    | _ => true
  | .removes true =>
    match download.stage with
    | .cleaning target inode _ =>
      (files.fileAt (partialOf target.path)).all fun found => decide (inode = some found)
    | _ => true
  | _ => true

/-- Whether a step finds the names it uses free. -/
def World.clear (world : World) : Step → Bool
  | .begins .. => true
  | .does id action =>
    match world.downloads[id]? with
    | none => true
    | some download => download.clear blake3 world.files world.isOpen action

end Downloads

end Distlib
