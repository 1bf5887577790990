import Distlib.Api.Downloads

/-!
# What downloads leave alone

The export of a file holds its hidden file open from when it opens it until it has moved it away
or removed it. While it does, that file is nobody else's (`Sound.apart`), has no name but the
hidden one (`Sound.alone`), and has in it what has been written of the blob (`Kept.copy`). So
what is moved is the whole blob, and where it is moved to there was nothing when the targets
were chosen (`Kept.pending`).

All of this is kept by a step that finds the names it uses free, and lost by the first that
does not: a file called like the hidden file of another, of the same download even, is emptied
and moved away (`Sample.loses_reported`).
-/

namespace Distlib

open OrdMap GuardedRun
open Tasks (PathBuf Source Downloaded)

namespace Downloads

variable {blake3 : List UInt8 → ContentHash} {files later : Files} {isOpen : ℕ → Bool}
  {download next : Download}

/-! ## What one thing does -/

/-- What a download has found in place or reported, and with which hash. -/
def Download.claims (download : Download) : List (PathBuf × ContentHash) :=
  download.files.map (fun file => (file.path, file.file)) ++
    (download.targets.filter (·.inPlace)).map fun target => (target.path, target.hash)

/-- The target a download is writing. -/
def Stage.target : Stage → Option Target
  | .exporting target _ => some target
  | .copying target _ _ => some target
  | .cleaning target _ _ => some target
  | _ => none

/-- What a download has chosen to write, and not written yet. -/
def Download.pending (download : Download) : List Target :=
  download.targets.filter (fun target => !target.inPlace) ++ download.stage.target.toList

/-- What one thing a download does can do, where the names it uses are free. -/
inductive Effect (blake3 : List UInt8 → ContentHash) (files : Files) (isOpen : ℕ → Bool)
    (download : Download) : Files → Download → Prop where
  | quiet {next : Download} (hbefore : next.before = download.before)
      (hpart : next.part = download.part ∨ next.part = none)
      (hcopying : ∀ target source copy, next.stage = .copying target source copy →
        download.stage = .copying target source copy)
      (hpending : ∀ target ∈ next.pending, target ∈ download.pending)
      (hclaims : ∀ claim ∈ next.claims, claim ∈ download.claims) : Effect blake3 files isOpen download files next
  | checked {next : Download} (hbefore : next.before = download.before) (hpart : next.part = none)
      (hpending : ∀ target ∈ next.pending, target ∈ download.pending ∨ files.fileAt target.path = none)
      (hclaims : ∀ claim ∈ next.claims, claim ∈ download.claims ∨
        ∃ inode, files.fileAt claim.1 = some inode ∧ blake3 (files.bytes inode) = claim.2 ∧
          isOpen inode = false) : Effect blake3 files isOpen download files next
  | opened {target : Target} {source : Source} {blob : List UInt8} {inode : ℕ} {later : Files}
      (hstage : download.stage = .exporting target source) (hnone : files.fileAt (partialOf target.path) = none)
      (hcreate : files.create (partialOf target.path) = some (inode, later))
      (hhash : blake3 blob = target.hash) :
      Effect blake3 files isOpen download later
        { download with stage := .copying target source ⟨inode, blob, 0⟩ }
  | wrote {target : Target} {source : Source} {copy : Copy} (count : ℕ)
      (hstage : download.stage = .copying target source copy) :
      Effect blake3 files isOpen download
        (files.write copy.inode copy.written ((copy.blob.drop copy.written).take count))
        { download with
          stage := .copying target source
            { copy with written := copy.written + ((copy.blob.drop copy.written).take count).length } }
  | renamed {target : Target} {source : Source} {copy : Copy} {later : Files}
      (hstage : download.stage = .copying target source copy) (hwritten : copy.written = copy.blob.length)
      (hrename : files.rename (partialOf target.path) target.path = some later)
      (hclear : ∀ found, files.fileAt target.path = some found →
        isOpen found = false ∧ blake3 (files.bytes found) = target.hash) :
      Effect blake3 files isOpen download later (download.fileWritten target source)
  | removed {target : Target} {inode : Option ℕ} {error : DownloadError} {later : Files}
      (hstage : download.stage = .cleaning target inode error)
      (hremove : files.remove (partialOf target.path) = some later)
      (hclear : ∀ found, files.fileAt (partialOf target.path) = some found → inode = some found) :
      Effect blake3 files isOpen download later { download with stage := .failed error }

theorem Effect.refl (download : Download) : Effect blake3 files isOpen download files download :=
  .quiet rfl (Or.inl rfl) (fun _ _ _ h => h) (fun _ h => h) fun _ h => h

/-- A download that goes on to a stage at which it has no file open. -/
theorem effect_stage {stage : Stage} {targets : List Target} {spent : Bool} (hpart : stage.part = none)
    (htarget : ∀ target, stage.target = some target → target ∈ download.pending)
    (htargets : ∀ target ∈ targets, target ∈ download.targets) :
    Effect blake3 files isOpen download files { download with targets, spent, stage } := by
  have hfilter : ∀ (keep : Target → Bool), ∀ target ∈ targets.filter keep,
      target ∈ download.targets.filter keep := by
    intro keep target hmem
    rw [List.mem_filter] at hmem ⊢
    exact ⟨htargets target hmem.1, hmem.2⟩
  refine .quiet rfl (Or.inr hpart) ?_ ?_ ?_
  · rintro target source copy rfl
    cases hpart
  · intro target hmem
    rw [Download.pending, List.mem_append, Option.mem_toList] at hmem
    rcases hmem with hmem | hmem
    · exact List.mem_append_left _ (hfilter _ target hmem)
    · exact htarget target hmem
  · intro claim hmem
    rw [Download.claims, List.mem_append, List.mem_map, List.mem_map] at hmem ⊢
    refine hmem.imp_right ?_
    rintro ⟨target, hfound, rfl⟩
    exact ⟨target, hfilter _ target hfound, rfl⟩

/-- A download that has nothing more to write. -/
theorem effect_ends {stage : Stage} {spent : Bool} (hpart : stage.part = none) (htarget : stage.target = none) :
    Effect blake3 files isOpen download files { download with spent, stage } := by
  refine effect_stage hpart ?_ fun _ h => h
  intro target hsome
  rw [htarget] at hsome
  cases hsome

/-- A download's own target is one it has yet to write. -/
theorem mem_pending {target : Target} (h : download.stage.target = some target) : target ∈ download.pending :=
  List.mem_append_right _ (Option.mem_toList.mpr h)

/-- What is found in place is there, and is no export's hidden file. -/
theorem targetIn_inPlace {dest : PathBuf} {taken : List Target} {hash : ContentHash} {record : FileRecord}
    {target : Target} (h : targetIn blake3 files dest taken hash record = .ok target)
    (hplace : target.inPlace = true) :
    ∃ inode, files.fileAt target.path = some inode ∧ blake3 (files.bytes inode) = target.hash := by
  rw [targetIn] at h
  split at h
  · cases h
  · dsimp only at h
    split at h
    · cases h
    · split at h
      · cases h
      · rename_i hthere
        cases h
        change files.isThere _ = true at hplace
        rw [hplace, Bool.true_and, Bool.not_eq_true', Bool.not_eq_false, alreadyThere] at hthere
        split at hthere
        · cases hthere
        · rename_i inode hinode
          exact ⟨inode, hinode, of_decide_eq_true (Bool.and_eq_true_iff.mp hthere).2⟩

/-- What is not in place has nothing in its place. -/
theorem targetIn_not_inPlace {dest : PathBuf} {taken : List Target} {hash : ContentHash}
    {record : FileRecord} {target : Target}
    (h : targetIn blake3 files dest taken hash record = .ok target) (hplace : target.inPlace = false) :
    files.fileAt target.path = none := by
  rw [targetIn] at h
  split at h
  · cases h
  · dsimp only at h
    split at h
    · cases h
    · split at h
      · cases h
      · cases h
        change files.isThere _ = false at hplace
        rw [FileSystem.isThere, Option.isSome_eq_false_iff, Option.isNone_iff_eq_none] at hplace
        rw [FileSystem.fileAt, hplace]

theorem effect_checks (hclear : download.clear blake3 files isOpen .checks = true) :
    Effect blake3 files isOpen download (download.step blake3 files .checks).1
      (download.step blake3 files .checks).2 := by
  rw [Download.step]
  rw [Download.clear] at hclear
  split
  · rename_i hash record wanted hstage
    rw [hstage] at hclear
    split
    · exact effect_ends rfl rfl
    · rename_i target htarget
      dsimp only at hclear
      rw [htarget] at hclear
      refine .checked rfl rfl ?_ ?_
      · intro found hmem
        rw [Download.pending, List.mem_append, List.filter_append, List.mem_append, List.mem_filter,
          List.mem_filter, List.mem_singleton] at hmem
        rcases hmem with (hbefore | ⟨rfl, hplace⟩) | hnone
        · left
          exact List.mem_append_left _ (List.mem_filter.mpr hbefore)
        · right
          exact targetIn_not_inPlace htarget ((Bool.not_eq_true' _).mp hplace)
        · cases hnone
      · intro claim hmem
        rw [Download.claims, List.mem_append, List.filter_append, List.map_append, List.mem_append,
          ← or_assoc] at hmem
        rcases hmem with hbefore | hnew
        · left
          rw [Download.claims, List.mem_append]
          exact hbefore
        · right
          obtain ⟨found, hfound, rfl⟩ := List.mem_map.mp hnew
          rw [List.mem_filter, List.mem_singleton] at hfound
          obtain ⟨rfl, hplace⟩ := hfound
          obtain ⟨inode, hinode, hbytes⟩ := targetIn_inPlace htarget hplace
          refine ⟨inode, hinode, hbytes, ?_⟩
          simpa [hplace, hinode] using hclear
  · exact .refl download

theorem effect_fetches (answers : Answers) :
    Effect blake3 files isOpen download (download.step blake3 files (.fetches answers)).1
      (download.step blake3 files (.fetches answers)).2 := by
  rw [Download.step]
  split
  · exact effect_ends rfl rfl
  · rename_i target targets hstage htargets
    split
    · rename_i hplace
      refine .quiet rfl (Or.inr rfl) (fun _ _ _ h => by cases h) ?_ ?_
      · intro found hmem
        rw [Download.pending, htargets, List.filter_cons_of_neg (by rw [hplace]; decide)]
        rw [Download.pending, List.mem_append] at hmem
        rcases hmem with hmem | hnone
        · exact List.mem_append_left _ hmem
        · cases hnone
      · intro claim hmem
        rw [Download.claims, Download.fileWritten, List.map_append, List.append_assoc, List.mem_append] at hmem
        rw [Download.claims, htargets, List.filter_cons_of_pos hplace, List.mem_append]
        exact hmem
    · rename_i hplace
      split
      · exact effect_ends rfl rfl
      · refine effect_stage rfl ?_ fun _ h => htargets ▸ List.mem_cons_of_mem _ h
        rintro _ ⟨⟩
        refine List.mem_append_left _ (List.mem_filter.mpr ⟨htargets ▸ List.mem_cons_self, ?_⟩)
        exact (Bool.not_eq_true' _).mpr (Bool.eq_false_iff.mpr hplace)
  · exact .refl download

theorem effect_makesRoom (shortBy : Option ℕ) :
    Effect blake3 files isOpen download (download.step blake3 files (.makesRoom shortBy)).1
      (download.step blake3 files (.makesRoom shortBy)).2 := by
  rw [Download.step.eq_def]
  dsimp only
  split
  · exact effect_ends rfl rfl
  · exact effect_ends rfl rfl
  · exact .refl download

theorem effect_opens {blob : Option (List UInt8)}
    (hclear : download.clear blake3 files isOpen (.opens blob) = true) :
    Effect blake3 files isOpen download (download.step blake3 files (.opens blob)).1
      (download.step blake3 files (.opens blob)).2 := by
  rw [Download.step.eq_def]
  dsimp only
  split
  · rename_i target source hstage
    refine effect_stage rfl ?_ fun _ h => h
    rintro _ ⟨⟩
    exact mem_pending (congrArg Stage.target hstage)
  · rename_i target source blob hstage
    split
    · rename_i hhash
      split
      · refine effect_stage rfl ?_ fun _ h => h
        rintro _ ⟨⟩
        exact mem_pending (congrArg Stage.target hstage)
      · rename_i inode later hcreate
        rw [Download.clear, hstage] at hclear
        exact .opened hstage (Option.isNone_iff_eq_none.mp hclear) hcreate hhash
    · exact .refl download
  · exact .refl download

theorem mem_pending_of_part {target : Target} {inode : ℕ} (h : download.part = some (target, inode)) :
    target ∈ download.pending := by
  refine mem_pending ?_
  rw [Download.part, Stage.part.eq_def] at h
  split at h
  · rename_i hstage
    cases h
    exact congrArg Stage.target hstage
  · rename_i hstage
    cases h
    exact congrArg Stage.target hstage
  · cases h

theorem part_copying {target : Target} {source : Source} {copy : Copy}
    (h : download.stage = .copying target source copy) : download.part = some (target, copy.inode) :=
  congrArg Stage.part h

/-- An export that fails has its hidden file open still. -/
theorem effect_fails {target : Target} {source : Source} {copy : Copy} {error : DownloadError}
    (h : download.stage = .copying target source copy) :
    Effect blake3 files isOpen download files
      { download with stage := .cleaning target (some copy.inode) error } := by
  refine .quiet rfl (Or.inl ?_) (fun _ _ _ heq => by cases heq) (fun target hmem => ?_) fun _ h => h
  · rw [part_copying h, Download.part, Stage.part]
  · rw [Download.pending, h]
    exact hmem

theorem effect_renames {ok : Bool} (hclear : download.clear blake3 files isOpen (.renames ok) = true) :
    Effect blake3 files isOpen download (download.step blake3 files (.renames ok)).1
      (download.step blake3 files (.renames ok)).2 := by
  rw [Download.step]
  split
  · rename_i target source copy hstage
    split
    · rename_i hwritten
      split
      · exact effect_fails hstage
      · rename_i later hrename
        cases ok with
        | false => cases hrename
        | true =>
          refine .renamed hstage hwritten hrename fun found hfound => ?_
          rw [Download.clear, hstage] at hclear
          simpa [hwritten, hfound, and_assoc] using hclear
    · exact .refl download
  · exact .refl download

theorem effect_removes {ok : Bool} (hclear : download.clear blake3 files isOpen (.removes ok) = true) :
    Effect blake3 files isOpen download (download.step blake3 files (.removes ok)).1
      (download.step blake3 files (.removes ok)).2 := by
  rw [Download.step]
  split
  · rename_i target inode error hstage
    cases ok with
    | false => exact effect_ends rfl rfl
    | true =>
      rw [if_pos rfl]
      rcases hremove : files.remove (partialOf target.path) with _ | later
      · exact effect_ends rfl rfl
      · refine .removed hstage hremove fun found hfound => ?_
        rw [Download.clear, hstage] at hclear
        simpa [hfound] using hclear
  · exact .refl download

/-- **What one thing does** that finds the names it uses free. -/
theorem step_effect {action : Action} (hclear : download.clear blake3 files isOpen action = true) :
    Effect blake3 files isOpen download (download.step blake3 files action).1
      (download.step blake3 files action).2 := by
  cases action with
  | checks => exact effect_checks hclear
  | makesRoom shortBy => exact effect_makesRoom shortBy
  | fetches answers => exact effect_fetches answers
  | opens blob => exact effect_opens hclear
  | writes count =>
    rw [Download.step]
    split
    · rename_i target source copy hstage
      exact .wrote count hstage
    · exact .refl download
  | breaks =>
    rw [Download.step]
    split
    · rename_i target source copy hstage
      exact effect_fails hstage
    · exact .refl download
  | renames ok => exact effect_renames hclear
  | removes ok => exact effect_removes hclear

/-! ## What stays as it is -/

/-- What a download has open is its own, and is what it has written so far. -/
structure Kept (blake3 : List UInt8 → ContentHash) (files : Files) (download : Download) : Prop where
  part : ∀ target inode, download.part = some (target, inode) →
    files.fileAt (partialOf target.path) = some inode
  copy : ∀ target source copy, download.stage = .copying target source copy →
    files.bytes copy.inode = copy.blob.take copy.written ∧ copy.written ≤ copy.blob.length ∧
      blake3 copy.blob = target.hash
  before : ∀ path inode, download.before path = some inode →
    inode < files.next ∧ ∀ target, download.part ≠ some (target, inode)
  pending : ∀ target ∈ download.pending, ∀ inode, files.fileAt target.path = some inode →
    download.before target.path ≠ some inode

theorem partialOf_ne (target : PathBuf) : partialOf target ≠ target := by
  intro heq
  rcases List.eq_nil_or_concat' target with rfl | ⟨dest, name, rfl⟩
  · cases heq
  · rw [partialOf, List.dropLast_concat, List.append_cancel_left_eq, List.getLastD_concat] at heq
    have hlength := congrArg String.length (List.head_eq_of_cons_eq heq)
    rw [String.length_append, String.length_append] at hlength
    have hdot : ".".length = 1 := rfl
    omega

/-- A file in whose place the download has moved its own, which has the same hash. -/
structure Replaced (blake3 : List UInt8 → ContentHash) (files later : Files) (isOpen : ℕ → Bool)
    (download next : Download) (path : PathBuf) (inode : ℕ) : Prop where
  shut : isOpen inode = false
  part : next.part = none
  there : ∃ target found, download.part = some (target, found) ∧ path = target.path ∧
    later.fileAt path = some found ∧ blake3 (later.bytes found) = blake3 (files.bytes inode)

/-- **The frame of a step**: a file that the download does not have open keeps its bytes, and its
name as well unless it is replaced by one with the same hash. -/
theorem Effect.keeps (h : Effect blake3 files isOpen download later next) (hkept : Kept blake3 files download)
    {path : PathBuf} {inode : ℕ} (hat : files.fileAt path = some inode)
    (hother : ∀ target, download.part ≠ some (target, inode)) :
    later.bytes inode = files.bytes inode ∧
      (later.fileAt path = some inode ∨ Replaced blake3 files later isOpen download next path inode) := by
  cases h with
  | quiet | checked => exact ⟨rfl, Or.inl hat⟩
  | @opened target source blob new later hstage hnone hcreate hhash =>
    obtain ⟨rfl, -, -, hbytes, hfiles⟩ := FileSystem.create_new hnone hcreate
    refine ⟨hbytes inode (Nat.ne_of_lt (FileSystem.lt_next hat)), Or.inl ((hfiles path inode).mpr ?_)⟩
    rw [if_neg]
    · exact hat
    · rintro rfl
      rw [hnone] at hat
      cases hat
  | @wrote target source copy count hstage =>
    refine ⟨FileSystem.bytes_write_of_ne ?_, Or.inl hat⟩
    rintro rfl
    exact hother target (part_copying hstage)
  | @renamed target source copy later hstage hwritten hrename hclear =>
    have hpart := part_copying hstage
    obtain ⟨hbytes, -, hfiles⟩ := FileSystem.rename_moved (hkept.part target copy.inode hpart) hrename
    refine ⟨congrFun hbytes inode, ?_⟩
    by_cases hpath : path = target.path
    · right
      subst hpath
      obtain ⟨hshut, hhash⟩ := hclear inode hat
      refine ⟨hshut, rfl, target, copy.inode, hpart, rfl, (hfiles _ _).mpr ?_, ?_⟩
      · rw [if_pos rfl]
      · obtain ⟨hcopied, -, hblob⟩ := hkept.copy target source copy hstage
        rw [hbytes, hcopied, hwritten, List.take_length, hblob, hhash]
    · left
      refine (hfiles path inode).mpr ?_
      rw [if_neg hpath]
      refine ⟨?_, hat⟩
      rintro rfl
      rw [hkept.part target copy.inode hpart] at hat
      exact hother target (Option.some.inj hat ▸ hpart)
  | @removed target own error later hstage hremove hclear =>
    obtain ⟨hbytes, -, hfiles⟩ := FileSystem.remove_gone hremove
    refine ⟨congrFun hbytes inode, Or.inl ((hfiles path inode).mpr ⟨?_, hat⟩)⟩
    rintro rfl
    have hown := hclear inode hat
    subst hown
    exact hother target (congrArg Stage.part hstage)

/-- There are never fewer files than there were. -/
theorem Effect.next_le (h : Effect blake3 files isOpen download later next)
    (hkept : Kept blake3 files download) : files.next ≤ later.next := by
  cases h with
  | quiet | checked | wrote => exact le_rfl
  | opened hstage hnone hcreate hhash =>
    obtain ⟨-, hnext, -⟩ := FileSystem.create_new hnone hcreate
    exact hnext ▸ Nat.le_succ _
  | renamed hstage hwritten hrename hclear =>
    obtain ⟨-, hnext, -⟩ := FileSystem.rename_moved (hkept.part _ _ (part_copying hstage)) hrename
    exact hnext.ge
  | removed hstage hremove hclear =>
    obtain ⟨-, hnext, -⟩ := FileSystem.remove_gone hremove
    exact hnext.ge

/-- What is at a name was there, is a new file, or has been moved to where it goes. -/
theorem Effect.comes (h : Effect blake3 files isOpen download later next) (hkept : Kept blake3 files download)
    {path : PathBuf} {inode : ℕ} (hat : later.fileAt path = some inode) :
    files.fileAt path = some inode ∨ inode = files.next ∨
      ∃ target, download.part = some (target, inode) ∧ path = target.path ∧ next.part = none := by
  cases h with
  | quiet | checked | wrote => exact Or.inl hat
  | opened hstage hnone hcreate hhash =>
    obtain ⟨rfl, -, -, -, hfiles⟩ := FileSystem.create_new hnone hcreate
    replace hat := (hfiles path inode).mp hat
    split at hat
    · exact Or.inr (Or.inl hat)
    · exact Or.inl hat
  | @renamed target source copy later hstage hwritten hrename hclear =>
    have hpart := part_copying hstage
    obtain ⟨-, -, hfiles⟩ := FileSystem.rename_moved (hkept.part target copy.inode hpart) hrename
    replace hat := (hfiles path inode).mp hat
    split at hat
    · rename_i hpath
      exact Or.inr (Or.inr ⟨target, hat ▸ hpart, hpath, rfl⟩)
    · exact Or.inl hat.2
  | removed hstage hremove hclear =>
    obtain ⟨-, -, hfiles⟩ := FileSystem.remove_gone hremove
    exact Or.inl ((hfiles path inode).mp hat).2

/-- What a download has open it had open before, or it is a new file. -/
theorem Effect.part (h : Effect blake3 files isOpen download later next) {target : Target} {inode : ℕ}
    (hpart : next.part = some (target, inode)) :
    download.part = some (target, inode) ∨ inode = files.next := by
  cases h with
  | quiet hbefore hsame hcopying hpending hclaims =>
    left
    rcases hsame with hsame | hnone
    · exact hsame.symm.trans hpart
    · rw [hnone] at hpart
      cases hpart
  | checked hbefore hnone hpending hclaims =>
    rw [hnone] at hpart
    cases hpart
  | opened hstage hfree hcreate hhash =>
    right
    cases hpart
    exact (FileSystem.create_new hfree hcreate).1
  | wrote count hstage =>
    left
    have hbefore := part_copying hstage
    cases hpart
    exact hbefore
  | renamed hstage hwritten hrename hclear => cases hpart
  | removed hstage hremove hclear => cases hpart

theorem Effect.before (h : Effect blake3 files isOpen download later next) : next.before = download.before := by
  cases h with
  | quiet hbefore => exact hbefore
  | checked hbefore => exact hbefore
  | opened | wrote | renamed | removed => rfl

/-- What a download has yet to write it had before, or there is nothing in its place. -/
theorem Effect.pending (h : Effect blake3 files isOpen download later next) {target : Target}
    (hmem : target ∈ next.pending) : target ∈ download.pending ∨ files.fileAt target.path = none := by
  cases h with
  | quiet hbefore hpart hcopying hpending hclaims => exact Or.inl (hpending target hmem)
  | checked hbefore hpart hpending hclaims => exact hpending target hmem
  | opened hstage | wrote count hstage =>
    left
    rw [Download.pending, hstage]
    exact hmem
  | renamed | removed =>
    left
    rw [Download.pending, List.mem_append] at hmem
    rcases hmem with hmem | hnone
    · exact List.mem_append_left _ hmem
    · cases hnone

/-- A new file is at its hidden name only. -/
theorem Effect.new_name (h : Effect blake3 files isOpen download later next) {target : Target}
    (hpart : next.part = some (target, files.next)) {path : PathBuf}
    (hat : later.fileAt path = some files.next) : path = partialOf target.path := by
  cases h with
  | quiet | checked | wrote => exact absurd (FileSystem.lt_next hat) (Nat.lt_irrefl _)
  | opened hstage hnone hcreate hhash =>
    obtain ⟨-, -, -, -, hfiles⟩ := FileSystem.create_new hnone hcreate
    replace hat := (hfiles path files.next).mp hat
    cases hpart
    split at hat
    · assumption
    · exact absurd (FileSystem.lt_next hat) (Nat.lt_irrefl _)
  | renamed => cases hpart
  | removed => cases hpart

/-- The file a download has open is its own still. -/
theorem Effect.kept_part (h : Effect blake3 files isOpen download later next)
    (hkept : Kept blake3 files download) {target : Target} {inode : ℕ}
    (hpart : next.part = some (target, inode)) : later.fileAt (partialOf target.path) = some inode := by
  cases h with
  | quiet hbefore hsame hcopying hpending hclaims =>
    rcases hsame with hsame | hnone
    · exact hkept.part target inode (hsame ▸ hpart)
    · rw [hnone] at hpart
      cases hpart
  | checked hbefore hnone hpending hclaims =>
    rw [hnone] at hpart
    cases hpart
  | opened hstage hfree hcreate hhash =>
    obtain ⟨rfl, -, -, -, hfiles⟩ := FileSystem.create_new hfree hcreate
    cases hpart
    exact (hfiles _ _).mpr (by rw [if_pos rfl])
  | wrote count hstage =>
    have hbefore := part_copying hstage
    cases hpart
    exact hkept.part _ _ hbefore
  | renamed hstage hwritten hrename hclear => cases hpart
  | removed hstage hremove hclear => cases hpart

/-- What a download has written of a blob is in its file. -/
theorem Effect.kept_copy (h : Effect blake3 files isOpen download later next)
    (hkept : Kept blake3 files download) {target : Target} {source : Source} {copy : Copy}
    (hstage : next.stage = .copying target source copy) :
    later.bytes copy.inode = copy.blob.take copy.written ∧ copy.written ≤ copy.blob.length ∧
      blake3 copy.blob = target.hash := by
  cases h with
  | quiet hbefore hsame hcopying hpending hclaims =>
    exact hkept.copy target source copy (hcopying target source copy hstage)
  | checked hbefore hnone hpending hclaims =>
    have hsome := part_copying hstage
    rw [hnone] at hsome
    cases hsome
  | opened hexporting hfree hcreate hhash =>
    obtain ⟨rfl, -, hempty, -, -⟩ := FileSystem.create_new hfree hcreate
    cases hstage
    exact ⟨hempty.trans List.take_zero.symm, Nat.zero_le _, hhash⟩
  | wrote count hcopying =>
    obtain ⟨hbytes, hle, hhash⟩ := hkept.copy _ _ _ hcopying
    cases hstage
    refine ⟨?_, ?_, hhash⟩
    · rw [FileSystem.bytes_write_self, hbytes, FileSystem.writeAt_take hle]
      dsimp only
      rw [List.length_take, List.length_drop, List.take_eq_take_iff]
      omega
    · dsimp only
      rw [List.length_take, List.length_drop]
      omega
  | renamed hcopying hwritten hrename hclear => cases hstage
  | removed hcleaning hremove hclear => cases hstage

/-- The download a step is of keeps its own file, and no file of before comes where it writes. -/
theorem Effect.kept (h : Effect blake3 files isOpen download later next) (hkept : Kept blake3 files download) :
    Kept blake3 later next := by
  refine ⟨fun target inode => h.kept_part hkept, fun target source copy => h.kept_copy hkept, ?_, ?_⟩
  · intro path inode hpath
    rw [h.before] at hpath
    obtain ⟨hlt, hnot⟩ := hkept.before path inode hpath
    refine ⟨Nat.lt_of_lt_of_le hlt (h.next_le hkept), fun target hpart => ?_⟩
    rcases h.part hpart with hbefore | rfl
    · exact hnot target hbefore
    · exact Nat.lt_irrefl _ hlt
  · intro target hmem inode hat hpath
    rw [h.before] at hpath
    obtain ⟨hlt, hnot⟩ := hkept.before target.path inode hpath
    rcases h.comes hkept hat with hthere | rfl | ⟨aim, hpart, -⟩
    · rcases h.pending hmem with hbefore | hnone
      · exact hkept.pending target hbefore inode hthere hpath
      · rw [hnone] at hthere
        cases hthere
    · exact Nat.lt_irrefl _ hlt
    · exact hnot aim hpart

/-- What a download has found in place or reported it had before, has found there now, or has just
moved there. -/
theorem Effect.claims (h : Effect blake3 files isOpen download later next)
    (hkept : Kept blake3 files download) {claim : PathBuf × ContentHash} (hmem : claim ∈ next.claims) :
    claim ∈ download.claims ∨
      (∃ inode, files.fileAt claim.1 = some inode ∧ blake3 (files.bytes inode) = claim.2 ∧
        isOpen inode = false) ∨
      ∃ target inode, download.part = some (target, inode) ∧ next.part = none ∧
        later.fileAt claim.1 = some inode ∧ blake3 (later.bytes inode) = claim.2 := by
  cases h with
  | quiet hbefore hpart hcopying hpending hclaims => exact Or.inl (hclaims claim hmem)
  | checked hbefore hpart hpending hclaims => exact (hclaims claim hmem).imp_right Or.inl
  | opened | wrote | removed => exact Or.inl hmem
  | @renamed target source copy later hstage hwritten hrename hclear =>
    have hpart := part_copying hstage
    obtain ⟨hbytes, -, hfiles⟩ := FileSystem.rename_moved (hkept.part target copy.inode hpart) hrename
    obtain ⟨hcopied, -, hblob⟩ := hkept.copy target source copy hstage
    rw [Download.claims, Download.fileWritten, List.map_append, List.mem_append, List.mem_append] at hmem
    rcases hmem with (hfile | hnew) | htarget
    · exact Or.inl (List.mem_append_left _ hfile)
    · right; right
      obtain rfl := List.mem_singleton.mp hnew
      refine ⟨target, copy.inode, hpart, rfl, (hfiles _ _).mpr (by rw [if_pos rfl]), ?_⟩
      rw [hbytes, hcopied, hwritten, List.take_length, hblob]
    · exact Or.inl (List.mem_append_right _ htarget)

/-! ## All downloads together -/

variable {world : World}

theorem isOpen_iff {inode : ℕ} : world.isOpen inode = true ↔
    ∃ (id : ℕ) (download : Download) (target : Target), world.downloads[id]? = some download ∧
      download.part = some (target, inode) := by
  rw [World.isOpen, List.any_eq_true]
  refine ⟨?_, ?_⟩
  · rintro ⟨⟨id, download⟩, hmem, hopen⟩
    obtain ⟨⟨target, found⟩, hpart, rfl⟩ := Option.map_eq_some_iff.mp (of_decide_eq_true hopen)
    exact ⟨id, download, target, Std.ExtTreeMap.mem_toList_iff_getElem?_eq_some.mp hmem, hpart⟩
  · rintro ⟨id, download, target, hdownload, hpart⟩
    refine ⟨(id, download), Std.ExtTreeMap.mem_toList_iff_getElem?_eq_some.mpr hdownload, ?_⟩
    rw [decide_eq_true_eq, hpart, Option.map_some]

/-- No two exports have one file open, and what downloads have found or reported is there. -/
structure Sound (blake3 : List UInt8 → ContentHash) (world : World) : Prop where
  kept : ∀ (id : ℕ) (download : Download), world.downloads[id]? = some download →
    Kept blake3 world.files download
  apart : ∀ (id other : ℕ) (download found : Download) (target aim : Target) (inode : ℕ),
    world.downloads[id]? = some download → world.downloads[other]? = some found →
      download.part = some (target, inode) → found.part = some (aim, inode) → id = other
  alone : ∀ (id : ℕ) (download : Download) (target : Target) (inode : ℕ),
    world.downloads[id]? = some download → download.part = some (target, inode) →
      (∀ path, world.files.fileAt path = some inode → path = partialOf target.path) ∧
      ∀ (other : ℕ) (found : Download) (path : PathBuf), world.downloads[other]? = some found →
        found.before path = some inode → path = partialOf target.path
  claimed : ∀ (id : ℕ) (download : Download), world.downloads[id]? = some download →
    ∀ claim ∈ download.claims, ∃ inode, world.files.fileAt claim.1 = some inode ∧
      blake3 (world.files.bytes inode) = claim.2 ∧ world.isOpen inode = false

/-- What the other downloads of a world have open stays theirs. -/
theorem Sound.others (h : Sound blake3 world) {id other : ℕ} {found : Download}
    (hdownload : world.downloads[id]? = some download) (hfound : world.downloads[other]? = some found)
    (hne : other ≠ id) (heffect : Effect blake3 world.files world.isOpen download later next) :
    Kept blake3 later found := by
  have hmine := h.kept id download hdownload
  have htheirs := h.kept other found hfound
  have hkeeps : ∀ target inode, found.part = some (target, inode) →
      later.fileAt (partialOf target.path) = some inode ∧ later.bytes inode = world.files.bytes inode := by
    intro target inode hpart
    have hopen : world.isOpen inode = true := isOpen_iff.mpr ⟨other, found, target, hfound, hpart⟩
    obtain ⟨hbytes, hsame | hreplaced⟩ := heffect.keeps hmine (htheirs.part target inode hpart)
      fun aim hown => hne (h.apart other id found download target aim inode hfound hdownload hpart hown)
    · exact ⟨hsame, hbytes⟩
    · rw [hreplaced.shut] at hopen
      cases hopen
  refine ⟨?_, ?_, ?_, ?_⟩
  · intro target inode hpart
    exact (hkeeps target inode hpart).1
  · intro target source copy hstage
    rw [(hkeeps target copy.inode (part_copying hstage)).2]
    exact htheirs.copy target source copy hstage
  · intro path inode hpath
    obtain ⟨hlt, hnot⟩ := htheirs.before path inode hpath
    exact ⟨Nat.lt_of_lt_of_le hlt (heffect.next_le hmine), hnot⟩
  · intro target hmem inode hat hpath
    rcases heffect.comes hmine hat with hthere | rfl | ⟨aim, hpart, hmoved, -⟩
    · exact htheirs.pending target hmem inode hthere hpath
    · exact Nat.lt_irrefl _ (htheirs.before _ _ hpath).1
    · -- what is moved has been at its hidden name as long as it has been there
      have hhidden := (h.alone id download aim inode hdownload hpart).2 other found target.path hfound hpath
      exact partialOf_ne aim.path (hhidden.symm.trans hmoved)

/-- The world once a download has done something. -/
theorem step_does {id : ℕ} {action : Action} (hdownload : world.downloads[id]? = some download) :
    world.step blake3 (.does id action) =
      ⟨(download.step blake3 world.files action).1,
        world.downloads.insert id (download.step blake3 world.files action).2⟩ := by
  rw [World.step, hdownload]

/-- Among the downloads once one has done something. -/
theorem getElem?_insert_cases {downloads : OrdMap ℕ Download} {id other : ℕ} {found : Download}
    (h : (downloads.insert id next)[other]? = some found) :
    other = id ∧ found = next ∨ other ≠ id ∧ downloads[other]? = some found := by
  rw [Std.ExtTreeMap.getElem?_insert] at h
  split at h
  · rename_i heq
    cases h
    exact Or.inl ⟨(compare_eq_iff_eq.mp heq).symm, rfl⟩
  · rename_i hne
    exact Or.inr ⟨fun heq => hne (compare_eq_iff_eq.mpr heq.symm), h⟩

section Step

variable {id : ℕ} (h : Sound blake3 world) (hdownload : world.downloads[id]? = some download)
  (heffect : Effect blake3 world.files world.isOpen download later next)

include h hdownload heffect

omit h in
/-- What nobody had open nobody has open afterwards. -/
theorem Effect.shut {inode : ℕ} (hshut : world.isOpen inode = false) (hlt : inode < world.files.next) :
    World.isOpen ⟨later, world.downloads.insert id next⟩ inode = false := by
  rw [Bool.eq_false_iff] at hshut ⊢
  intro hopen
  obtain ⟨other, found, target, hfound, hpart⟩ := isOpen_iff.mp hopen
  rcases getElem?_insert_cases hfound with ⟨rfl, rfl⟩ | ⟨-, hfound⟩
  · rcases heffect.part hpart with hbefore | rfl
    · exact hshut (isOpen_iff.mpr ⟨other, download, target, hdownload, hbefore⟩)
    · exact Nat.lt_irrefl _ hlt
  · exact hshut (isOpen_iff.mpr ⟨other, found, target, hfound, hpart⟩)

/-- What the download had open and has no more nobody has open. -/
theorem Sound.closed {target : Target} {inode : ℕ} (hpart : download.part = some (target, inode))
    (hnone : next.part = none) :
    World.isOpen ⟨later, world.downloads.insert id next⟩ inode = false := by
  rw [Bool.eq_false_iff]
  intro hopen
  obtain ⟨other, found, aim, hfound, hopened⟩ := isOpen_iff.mp hopen
  rcases getElem?_insert_cases hfound with ⟨rfl, rfl⟩ | ⟨hne, hfound⟩
  · rw [hnone] at hopened
    cases hopened
  · exact hne (h.apart other id found download aim target inode hfound hdownload hopened hpart)

/-- What was there with a hash, and open to nobody, is there still. -/
theorem Sound.stays {path : PathBuf} {hash : ContentHash} (hbefore : ∃ inode,
      world.files.fileAt path = some inode ∧ blake3 (world.files.bytes inode) = hash ∧
        world.isOpen inode = false) :
    ∃ inode, later.fileAt path = some inode ∧ blake3 (later.bytes inode) = hash ∧
      World.isOpen ⟨later, world.downloads.insert id next⟩ inode = false := by
  obtain ⟨inode, hat, hhash, hshut⟩ := hbefore
  have hother : ∀ target, download.part ≠ some (target, inode) := by
    intro target hpart
    rw [isOpen_iff.mpr ⟨id, download, target, hdownload, hpart⟩] at hshut
    cases hshut
  obtain ⟨hbytes, hsame | hreplaced⟩ := heffect.keeps (h.kept id download hdownload) hat hother
  · exact ⟨inode, hsame, hbytes ▸ hhash, heffect.shut hdownload hshut (FileSystem.lt_next hat)⟩
  · obtain ⟨target, found, hpart, -, hfound, hsamehash⟩ := hreplaced.there
    exact ⟨found, hfound, hsamehash.trans hhash, h.closed hdownload heffect hpart hreplaced.part⟩

/-- An open file has no name but its hidden one, and never had. -/
theorem Sound.alone_effect {other : ℕ} {found : Download} {target : Target} {inode : ℕ}
    (hfound : (world.downloads.insert id next)[other]? = some found)
    (hpart : found.part = some (target, inode)) :
    (∀ path, later.fileAt path = some inode → path = partialOf target.path) ∧
      ∀ (third : ℕ) (theirs : Download) (path : PathBuf),
        (world.downloads.insert id next)[third]? = some theirs →
          theirs.before path = some inode → path = partialOf target.path := by
  have hkept := h.kept id download hdownload
  -- what another download has seen it had seen before
  have hseen : ∀ (third : ℕ) (theirs : Download),
      (world.downloads.insert id next)[third]? = some theirs →
        ∃ earlier, world.downloads[third]? = some earlier ∧ theirs.before = earlier.before := by
    intro third theirs htheirs
    rcases getElem?_insert_cases htheirs with ⟨rfl, rfl⟩ | ⟨-, htheirs⟩
    · exact ⟨download, hdownload, heffect.before⟩
    · exact ⟨theirs, htheirs, rfl⟩
  have hold : (∃ earlier, world.downloads[other]? = some earlier ∧ earlier.part = some (target, inode)) ∨
      other = id ∧ found = next ∧ inode = world.files.next := by
    rcases getElem?_insert_cases hfound with ⟨rfl, rfl⟩ | ⟨-, hfound⟩
    · rcases heffect.part hpart with hbefore | hnew
      · exact Or.inl ⟨download, hdownload, hbefore⟩
      · exact Or.inr ⟨rfl, rfl, hnew⟩
    · exact Or.inl ⟨found, hfound, hpart⟩
  rcases hold with ⟨earlier, hearlier, hopen⟩ | ⟨rfl, rfl, rfl⟩
  · obtain ⟨hnames, hbefores⟩ := h.alone other earlier target inode hearlier hopen
    refine ⟨?_, ?_⟩
    · intro path hat
      rcases heffect.comes hkept hat with hthere | rfl | ⟨aim, hmine, hmoved, hnone⟩
      · exact hnames path hthere
      · exact absurd (FileSystem.lt_next ((h.kept other earlier hearlier).part _ _ hopen)) (Nat.lt_irrefl _)
      · -- whoever has just moved its file has it open no more
        obtain rfl := h.apart other id earlier download target aim inode hearlier hdownload hopen hmine
        rcases getElem?_insert_cases hfound with ⟨-, rfl⟩ | ⟨hne, -⟩
        · rw [hnone] at hpart
          cases hpart
        · exact absurd rfl hne
    · intro third theirs path htheirs hpath
      obtain ⟨before, hbefore, hsame⟩ := hseen third theirs htheirs
      exact hbefores third before path hbefore (hsame ▸ hpath)
  · refine ⟨?_, ?_⟩
    · intro path hat
      exact heffect.new_name hpart hat
    · intro third theirs path htheirs hpath
      obtain ⟨before, hbefore, hsame⟩ := hseen third theirs htheirs
      have hlt := ((h.kept third before hbefore).before path _ (hsame ▸ hpath)).1
      exact absurd hlt (Nat.lt_irrefl _)

theorem Sound.effect : Sound blake3 ⟨later, world.downloads.insert id next⟩ := by
  have hkept := h.kept id download hdownload
  refine ⟨?_, ?_, fun other found target inode hfound hpart => h.alone_effect hdownload heffect hfound hpart, ?_⟩
  · intro other found hfound
    rcases getElem?_insert_cases hfound with ⟨rfl, rfl⟩ | ⟨hne, hfound⟩
    · exact heffect.kept hkept
    · exact h.others hdownload hfound hne heffect
  · -- a file that is opened is new, and no other download has it
    have hnew : ∀ (other : ℕ) (found : Download) (target aim : Target) (inode : ℕ), other ≠ id →
        world.downloads[other]? = some found → found.part = some (aim, inode) →
          next.part ≠ some (target, inode) := by
      intro other found target aim inode hne hfound hopened hpart
      rcases heffect.part hpart with hbefore | rfl
      · exact hne (h.apart other id found download aim target inode hfound hdownload hopened hbefore)
      · exact Nat.lt_irrefl _ (FileSystem.lt_next ((h.kept other found hfound).part aim _ hopened))
    intro first second mine theirs target aim inode hfirst hsecond hpart hopened
    rcases getElem?_insert_cases hfirst with ⟨rfl, rfl⟩ | ⟨hne, hmine⟩
    · rcases getElem?_insert_cases hsecond with ⟨rfl, -⟩ | ⟨hne, htheirs⟩
      · rfl
      · exact absurd hpart (hnew second theirs target aim inode hne htheirs hopened)
    · rcases getElem?_insert_cases hsecond with ⟨rfl, rfl⟩ | ⟨-, htheirs⟩
      · exact absurd hopened (hnew first mine aim target inode hne hmine hpart)
      · exact h.apart first second mine theirs target aim inode hmine htheirs hpart hopened
  · intro other found hfound claim hmem
    rcases getElem?_insert_cases hfound with ⟨rfl, rfl⟩ | ⟨-, hfound⟩
    · rcases heffect.claims hkept hmem with hbefore | hfoundNow | ⟨target, inode, hpart, hnone, hat, hhash⟩
      · exact h.stays hdownload heffect (h.claimed other download hdownload claim hbefore)
      · exact h.stays hdownload heffect hfoundNow
      · exact ⟨inode, hat, hhash, h.closed hdownload heffect hpart hnone⟩
    · exact h.stays hdownload heffect (h.claimed other found hfound claim hmem)

end Step

/-- A download that begins writes nothing yet. -/
theorem first_idle (itemId : ItemId) (offered : OrdMap ContentHash FileRecord) (file : Option ContentHash) :
    (Stage.first itemId offered file).part = none ∧ (Stage.first itemId offered file).target = none := by
  rw [Stage.first]
  split
  · exact ⟨rfl, rfl⟩
  · exact ⟨rfl, rfl⟩

theorem sound_begins (h : Sound blake3 world) (id : ℕ) (itemId : ItemId)
    (offered : OrdMap ContentHash FileRecord) (file : Option ContentHash) (dest : PathBuf) :
    Sound blake3 (world.step blake3 (.begins id itemId offered file dest)) := by
  rw [World.step]
  split
  · exact h
  · obtain ⟨hpart, htarget⟩ := first_idle itemId offered file
    refine ⟨?_, ?_, ?_, ?_⟩
    · intro other found hfound
      rcases getElem?_insert_cases hfound with ⟨rfl, rfl⟩ | ⟨-, hfound⟩
      · refine ⟨?_, ?_, ?_, ?_⟩
        · intro target inode hsome
          exact absurd (hpart.symm.trans hsome) fun h => by cases h
        · intro target source copy hstage
          exact absurd (hpart.symm.trans (part_copying hstage)) fun h => by cases h
        · intro path inode hpath
          exact ⟨FileSystem.lt_next hpath, fun target hsome => absurd (hpart.symm.trans hsome) fun h => by cases h⟩
        · intro target hmem
          rw [Download.pending, htarget] at hmem
          cases hmem
      · exact h.kept other found hfound
    · intro first second mine theirs target aim inode hfirst hsecond hopen hopened
      rcases getElem?_insert_cases hfirst with ⟨-, rfl⟩ | ⟨-, hmine⟩
      · exact absurd (hpart.symm.trans hopen) fun h => by cases h
      · rcases getElem?_insert_cases hsecond with ⟨-, rfl⟩ | ⟨-, htheirs⟩
        · exact absurd (hpart.symm.trans hopened) fun h => by cases h
        · exact h.apart first second mine theirs target aim inode hmine htheirs hopen hopened
    · intro other found target inode hfound hopen
      rcases getElem?_insert_cases hfound with ⟨-, rfl⟩ | ⟨-, hfound⟩
      · exact absurd (hpart.symm.trans hopen) fun h => by cases h
      · obtain ⟨hnames, hbefores⟩ := h.alone other found target inode hfound hopen
        refine ⟨hnames, fun third theirs path htheirs hpath => ?_⟩
        rcases getElem?_insert_cases htheirs with ⟨-, rfl⟩ | ⟨-, htheirs⟩
        · exact hnames path hpath
        · exact hbefores third theirs path htheirs hpath
    · intro other found hfound claim hmem
      rcases getElem?_insert_cases hfound with ⟨-, rfl⟩ | ⟨-, hfound⟩
      · cases hmem
      · obtain ⟨inode, hat, hhash, hshut⟩ := h.claimed other found hfound claim hmem
        refine ⟨inode, hat, hhash, ?_⟩
        rw [Bool.eq_false_iff] at hshut ⊢
        intro hopen
        obtain ⟨third, theirs, target, htheirs, hopened⟩ := isOpen_iff.mp hopen
        rcases getElem?_insert_cases htheirs with ⟨-, rfl⟩ | ⟨-, htheirs⟩
        · exact absurd (hpart.symm.trans hopened) fun h => by cases h
        · exact hshut (isOpen_iff.mpr ⟨third, theirs, target, htheirs, hopened⟩)

/-- A step that finds the names it uses free spares what was there before. -/
theorem Sound.step (h : Sound blake3 world) {s : Step} (hclear : world.clear blake3 s = true) :
    Sound blake3 (world.step blake3 s) ∧ Spares blake3 world s := by
  cases s with
  | begins id itemId offered file dest => exact ⟨sound_begins h id itemId offered file dest, trivial⟩
  | does id action =>
    rcases hdownload : world.downloads[id]? with _ | download
    · refine ⟨?_, ?_⟩
      · rw [World.step, hdownload]
        exact h
      · intro download hsome
        rw [hdownload] at hsome
        cases hsome
    · rw [World.clear, hdownload] at hclear
      have heffect := step_effect hclear
      refine ⟨?_, ?_⟩
      · rw [step_does hdownload]
        exact h.effect hdownload heffect
      · intro mine hmine path inode hbefore hat
        obtain rfl : mine = download := Option.some.inj (hmine.symm.trans hdownload)
        rw [step_does hdownload]
        have hkept := h.kept id mine hdownload
        obtain ⟨hbytes, hsame | hreplaced⟩ := heffect.keeps hkept hat (hkept.before path inode hbefore).2
        · exact ⟨hsame, hbytes⟩
        · -- where it moves its file there was nothing before
          obtain ⟨target, found, hpart, rfl, -⟩ := hreplaced.there
          exact absurd hbefore (hkept.pending target (mem_pending_of_part hpart) inode hat)

theorem sound_start (files : Files) : Sound blake3 (.start files) := by
  have hnone : ∀ id : ℕ, (World.start files).downloads[id]? = none := fun id =>
    Std.ExtTreeMap.getElem?_empty
  have hnot : ∀ (id : ℕ) (download : Download), (World.start files).downloads[id]? ≠ some download :=
    fun id download hsome => by
      rw [hnone] at hsome
      cases hsome
  exact ⟨fun id download hsome => absurd hsome (hnot id download),
    fun id _ download _ _ _ _ hsome => absurd hsome (hnot id download),
    fun id download _ _ hsome => absurd hsome (hnot id download),
    fun id download hsome => absurd hsome (hnot id download)⟩

/-- What is reported is there. -/
theorem Sound.holds (h : Sound blake3 world) : Holds blake3 world := by
  intro id download hdownload _ file hmem
  have hclaim : (file.path, file.file) ∈ download.claims :=
    List.mem_append_left _ (List.mem_map_of_mem hmem)
  obtain ⟨inode, hat, hhash, -⟩ := h.claimed id download hdownload _ hclaim
  exact ⟨inode, hat, hhash⟩

/-- **Downloads that find the names they use free lose nothing.** Whatever files there are, and
however many downloads run beside one another: as long as every step finds the names it uses
free, no step replaces, changes or removes a file that was there when its download chose its
targets, and whatever a finished download has reported is at its path, with the bytes of its
hash. -/
theorem spares_and_holds (blake3 : List UInt8 → ContentHash) (files : Files) (steps : List Step)
    (h : Along (World.step blake3) (fun world s => world.clear blake3 s = true) (.start files) steps) :
    Along (World.step blake3) (Spares blake3) (.start files) steps ∧
      Holds blake3 (exec (World.step blake3) (.start files) steps) := by
  refine ⟨?_, ?_⟩
  · refine Along.imp_invariant (I := Sound blake3) ?_ (sound_start files) h
    intro world s hsound hclear
    exact hsound.step hclear
  · refine (Along.invariant (I := Sound blake3) ?_ (sound_start files) h).holds
    intro world s hsound hclear
    exact (hsound.step hclear).1

namespace Sample

/-- the hashes of `a`, of `c` and of nothing -/
def hashOf (bytes : List UInt8) : ContentHash :=
  if bytes = [97] then ⟨0x17762fddd969a453925d65717ac3eea21320b66b54342fde15128d6caf21215f⟩
  else if bytes = [99] then ⟨0xea7aa1fc9efdbe106dbb70369a75e9671fa29d52bd55536711bf197477b8f021⟩
  else ⟨0xaf1349b9f5f9a1a6a0404dea36dcc9499bcb25c9adc112b7cc9a93cae41f3262⟩

/-- a directory with one file in it, an empty one -/
def books (name : String) : Files where
  entries path :=
    if path = ["books"] then some .directory
    else if path = ["books", name] then some (.file 0)
    else none
  bytes _ := []
  next := 1
  fresh path inode h := by
    split at h
    · cases h
    · split at h
      · cases h
        exact Nat.one_pos
      · cases h

def record (filename : String) : FileRecord := ⟨.content, "txt", 1, filename, none, none, none, none⟩

/-- an item of two files, `a` under the one name and `c` under the other -/
def item (first second : String) : OrdMap ContentHash FileRecord :=
  ((∅ : OrdMap ContentHash FileRecord).insert (hashOf [97]) (record first)).insert (hashOf [99]) (record second)

/-- what the blobs answer about a file that is here already -/
def here : Answers := ⟨.ok (), .ok true, .ok (), false, .ok ()⟩

/-- a file being written out -/
def writes (blob : List UInt8) : List Action := [.fetches here, .opens (some blob), .writes 1, .renames true]

def actions : List Action :=
  [.checks, .checks, .makesRoom none] ++ writes [97] ++ writes [99] ++ [.fetches here]

/-- a download of both files, from beginning to end -/
def run (first second : String) : List Step :=
  .begins 0 ⟨0⟩ (item first second) none ["books"] :: actions.map (.does 0)

/-- Two files with plain names are written beside what is there. -/
theorem writes_both :
    Along (World.step hashOf) (Spares hashOf) (.start (books "notes")) (run "a" "c") ∧
      Holds hashOf (exec (World.step hashOf) (.start (books "notes")) (run "a" "c")) :=
  spares_and_holds hashOf (books "notes") (run "a" "c") (by decide +kernel)

/-- A file under another's hidden name is reported, and is gone. -/
theorem loses_reported :
    ¬ Holds hashOf (exec (World.step hashOf) (.start (books "notes")) (run ".c.partial" "c")) := by
  intro hholds
  have hdone : ((exec (World.step hashOf) (.start (books "notes")) (run ".c.partial" "c")).downloads[0]?.map
      fun download => (download.stage, download.files)) =
        some (.finished,
          [⟨hashOf [97], ".c.partial", ["books", ".c.partial"], .store⟩,
            ⟨hashOf [99], "c", ["books", "c"], .store⟩]) := by
    decide +kernel
  obtain ⟨download, hdownload, hreport⟩ := Option.map_eq_some_iff.mp hdone
  obtain ⟨hstage, hfiles⟩ := Prod.mk.inj hreport
  obtain ⟨inode, hat, -⟩ := hholds 0 download hdownload hstage
    ⟨hashOf [97], ".c.partial", ["books", ".c.partial"], .store⟩ (hfiles ▸ List.mem_cons_self)
  have hnone : (exec (World.step hashOf) (.start (books "notes")) (run ".c.partial" "c")).files.fileAt
      ["books", ".c.partial"] = none := by
    decide +kernel
  rw [hnone] at hat
  cases hat

end Sample

end Downloads

end Distlib
