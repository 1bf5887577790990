import Distlib.Core.Id
import Distlib.Lib.GuardedRun
import Distlib.Lib.Ranking

/-!
# Downloads and how they end

A download outlives the request that started it, so it has an id that its caller can ask
about. The registry holds a state for each: the running ones, and of those that have ended
as many as it keeps. The work itself holds a handle, through which it reports how far it has
got and, once, how it ended; dropping the handle ends a download that has not.

A method of the handle takes the registry's lock and sends on the bus one thing at a time,
and other downloads' methods run in between. So here a call only says what is to be done
(`Handle.toDo`), and each of these things is a step of its own, whichever handle's turn it is.

Pruning goes by id, the order downloads started in, and not by the order they ended in. What
is kept of the ended ones are always the `keepEnded` that started last (`Sound.kept`). So a
download that `keepEnded` later ones have overtaken is pruned as it ends, before its ending
is published, and whoever hears the ending and asks is told there is no such download:
`asked_iff` says that this is the only way to be told anything else than how it ended.
-/

namespace Distlib

open OrdMap Ranking GuardedRun

namespace Tasks

/-- Names one piece of work in progress, counted from one. -/
abbrev TaskId := ℕ

/-- A path, by its components. -/
abbrev PathBuf := List String

/-- How far a download has got. -/
structure Progress where
  bytesDone : ℕ
  bytesTotal : ℕ
  /-- files written to their destination -/
  filesDone : ℕ
  filesTotal : ℕ
  deriving DecidableEq

/-- Where a downloaded file came from. -/
inductive Source : Type where
  | network
  | store
  | destination
  deriving DecidableEq

/-- One file a finished download wrote. -/
structure Downloaded where
  file : ContentHash
  filename : String
  path : PathBuf
  source : Source
  deriving DecidableEq

/-- Where a download has got to. -/
inductive Outcome : Type where
  | running
  | finished (files : List Downloaded)
  | failed (error : String)
  deriving DecidableEq

/-- What asking about a download is answered with. -/
structure TaskState where
  taskId : TaskId
  itemId : ItemId
  title : Option String
  progress : Progress
  outcome : Outcome
  deriving DecidableEq

/-- What is published about downloads. -/
inductive Event : Type where
  | downloadProgress (taskId : TaskId) (itemId : ItemId) (progress : Progress)
  | downloadFinished (taskId : TaskId) (itemId : ItemId)
  | downloadFailed (taskId : TaskId) (itemId : ItemId)
  deriving DecidableEq

/-- How many finished or failed downloads are kept. -/
def keepEnded : ℕ := 64

/-- How often a download's progress is published at most, in milliseconds. -/
def publishEvery : ℕ := 250

/-! ## The registry -/

/-- The downloads that are running or have recently run, in the order they started. -/
structure Registry where
  next : ℕ
  tasks : OrdMap TaskId TaskState

namespace Registry

/-- One download, if it was started and has not been pruned since. -/
def get (registry : Registry) (task : TaskId) : Option TaskState := registry.tasks[task]?

/-- Every download still running, as the progress a page would have heard. -/
def running (registry : Registry) : List Event :=
  ((registry.tasks.toList.map Prod.snd).filter (·.outcome = .running)).map fun state =>
    .downloadProgress state.taskId state.itemId state.progress

/-- Stores how far `task` has got. -/
def record (registry : Registry) (task : TaskId) (progress : Progress) : Registry :=
  { registry with tasks := registry.tasks.modify task ({ · with progress }) }

/-- The downloads that have ended and are kept, oldest first. -/
def ended (tasks : OrdMap TaskId TaskState) : List TaskId :=
  ((tasks.toList.map Prod.snd).filter (·.outcome ≠ .running)).map (·.taskId)

/-- Moves `task` to `outcome`, and prunes the oldest ended ones past `keepEnded`. -/
def endAs (registry : Registry) (task : TaskId) (outcome : Outcome) : Registry :=
  let tasks := registry.tasks.modify task ({ · with outcome })
  let ended := ended tasks
  { registry with
    tasks := (ended.take (ended.length - keepEnded)).foldl (fun tasks old => tasks.erase old) tasks }

end Registry

/-! ## The handle -/

/-- One running download: how its work reports progress, and how it ends. -/
structure Download where
  taskId : TaskId
  itemId : ItemId
  progress : Progress
  published : Option ℕ
  ended : Bool

/-- What a method of the handle does that others can see, one thing at a time. -/
inductive Action : Type where
  | record
  | publishProgress
  /-- publishes progress if the last time was long enough ago -/
  | publishIfDue
  | endAs (outcome : Outcome)
  | publish (event : Event)
  | drop
  /-- the handle is gone -/
  | free

namespace Download

/-- Ends it as failed: stores that, then publishes it. -/
def failed (download : Download) (error : String) : List Action :=
  [.endAs (.failed error), .publish (.downloadFailed download.taskId download.itemId)]

/-- What is left to do when the handle is dropped. -/
def drop (download : Download) : List Action :=
  (if download.ended then [] else download.failed "interrupted before it finished") ++ [.free]

end Download

/-- A method of the handle, as its owner calls it. -/
inductive Call : Type where
  | progress (bytesDone : ℕ)
  | fileWritten (bytesDone : ℕ)
  | finish (files : List Downloaded)
  | fail (error : String)
  | drop

/-- A handle, and what the method that runs on it still has to do. -/
structure Handle where
  download : Download
  toDo : List Action

/-- The handle with a method called on it. `finish` and `fail` take the handle, so that it is
dropped at their end. -/
def Handle.call (download : Download) : Call → Handle
  | .progress bytesDone =>
    ⟨{ download with progress := { download.progress with bytesDone } }, [.record, .publishIfDue]⟩
  | .fileWritten bytesDone =>
    ⟨{ download with
        progress := { download.progress with bytesDone, filesDone := download.progress.filesDone + 1 } },
      [.record, .publishProgress]⟩
  | .finish files =>
    ⟨{ download with
        progress := { download.progress with
          bytesDone := download.progress.bytesTotal, filesDone := download.progress.filesTotal } },
      [.record, .publishProgress, .endAs (.finished files),
        .publish (.downloadFinished download.taskId download.itemId), .drop]⟩
  | .fail error => ⟨download, download.failed error ++ [.drop]⟩
  | .drop => ⟨download, [.drop]⟩

/-! ## All downloads together -/

/-- What there is to tell of a run: an ending stored, and an event published. -/
inductive Happening : Type where
  | ended (task : TaskId) (outcome : Outcome)
  | published (event : Event)
  deriving DecidableEq

/-- The registry, the handles there are, and what has happened so far, which nothing reads. -/
structure World where
  registry : Registry
  handles : OrdMap TaskId Handle
  log : List Happening

/-- A node that has just started. -/
def World.new : World := ⟨⟨0, ∅⟩, ∅, []⟩

/-- What happens next. -/
inductive Step : Type where
  | startDownload (item : ItemId) (title : Option String) (filesTotal bytesTotal : ℕ)
  | call (task : TaskId) (call : Call)
  /-- the next thing that `task` has to do is done, at time `now` -/
  | goOn (task : TaskId) (now : ℕ)

namespace World

def startDownload (world : World) (item : ItemId) (title : Option String)
    (filesTotal bytesTotal : ℕ) : World :=
  let progress := { bytesDone := 0, bytesTotal, filesDone := 0, filesTotal }
  let task := world.registry.next + 1
  { world with
    registry := ⟨task, world.registry.tasks.insert task ⟨task, item, title, progress, .running⟩⟩
    handles := world.handles.insert task ⟨⟨task, item, progress, none, false⟩, []⟩ }

/-- Publishes how far the download has got, which its handle remembers the time of. -/
def publishProgress (world : World) (download : Download) (rest : List Action) (now : ℕ) : World :=
  { world with
    handles := world.handles.insert download.taskId ⟨{ download with published := some now }, rest⟩
    log := world.log ++
      [.published (.downloadProgress download.taskId download.itemId download.progress)] }

/-- The first thing the handle has to do. -/
def act (world : World) (download : Download) (rest : List Action) (now : ℕ) : Action → World
  | .record =>
    { world with
      registry := world.registry.record download.taskId download.progress
      handles := world.handles.insert download.taskId ⟨download, rest⟩ }
  | .publishProgress => world.publishProgress download rest now
  | .publishIfDue =>
    if download.published.all (· + publishEvery ≤ now) then world.publishProgress download rest now
    else { world with handles := world.handles.insert download.taskId ⟨download, rest⟩ }
  | .endAs outcome =>
    { registry := world.registry.endAs download.taskId outcome
      handles := world.handles.insert download.taskId ⟨{ download with ended := true }, rest⟩
      log := world.log ++ [.ended download.taskId outcome] }
  | .publish event =>
    { world with
      handles := world.handles.insert download.taskId ⟨download, rest⟩
      log := world.log ++ [.published event] }
  | .drop =>
    { world with handles := world.handles.insert download.taskId ⟨download, download.drop ++ rest⟩ }
  | .free => { world with handles := world.handles.erase download.taskId }

def step (world : World) : Step → World
  | .startDownload item title filesTotal bytesTotal =>
    world.startDownload item title filesTotal bytesTotal
  | .call task call =>
    -- a method holds the handle until it is done
    match world.handles[task]? with
    | some ⟨download, []⟩ =>
      { world with handles := world.handles.insert task (Handle.call download call) }
    | _ => world
  | .goOn task now =>
    match world.handles[task]? with
    | some ⟨download, action :: rest⟩ => world.act download rest now action
    | _ => world

end World

/-! ## What pruning leaves -/

section Pruning

variable {tasks : OrdMap TaskId TaskState} {registry : Registry} {task other : TaskId}
  {state : TaskState} {outcome : Outcome}

/-- Every state is kept under its own id. -/
def Named (tasks : OrdMap TaskId TaskState) : Prop :=
  ∀ (task : TaskId) (state : TaskState), tasks[task]? = some state → state.taskId = task

theorem mem_ended (hnamed : Named tasks) :
    task ∈ Registry.ended tasks ↔ ∃ state, tasks[task]? = some state ∧ state.outcome ≠ .running := by
  rw [Registry.ended]
  simp only [List.mem_map, List.mem_filter, decide_eq_true_eq]
  constructor
  · rintro ⟨_, ⟨⟨⟨key, state⟩, hmem, rfl⟩, hended⟩, rfl⟩
    have hstate := Std.ExtTreeMap.mem_toList_iff_getElem?_eq_some.mp hmem
    rw [hnamed key state hstate]
    exact ⟨state, hstate, hended⟩
  · rintro ⟨state, hstate, hended⟩
    exact ⟨state, ⟨⟨(task, state), Std.ExtTreeMap.mem_toList_iff_getElem?_eq_some.mpr hstate, rfl⟩,
      hended⟩, hnamed task state hstate⟩

/-- They are listed oldest first, each once. -/
theorem pairwise_ended (hnamed : Named tasks) : (Registry.ended tasks).Pairwise (· < ·) := by
  rw [Registry.ended, List.pairwise_map]
  refine List.Pairwise.filter _ (List.pairwise_map.mpr ?_)
  refine (Std.ExtTreeMap.ordered_keys_toList (t := tasks)).imp_of_mem ?_
  rintro ⟨a, first⟩ ⟨b, second⟩ ha hb hlt
  rw [hnamed a first (Std.ExtTreeMap.mem_toList_iff_getElem?_eq_some.mp ha),
    hnamed b second (Std.ExtTreeMap.mem_toList_iff_getElem?_eq_some.mp hb)]
  exact Nat.compare_eq_lt.mp hlt

theorem getElem?_foldl_erase (olds : List TaskId) : ∀ (tasks : OrdMap TaskId TaskState),
    (olds.foldl (fun tasks old => tasks.erase old) tasks)[task]? =
      if task ∈ olds then none else tasks[task]? := by
  induction olds with
  | nil =>
    intro tasks
    rfl
  | cons old olds ih =>
    intro tasks
    rw [List.foldl_cons, ih, Std.ExtTreeMap.getElem?_erase]
    simp only [List.mem_cons, Std.LawfulEqCmp.compare_eq_iff_eq, eq_comm (a := old)]
    by_cases hmem : task ∈ olds
    · simp [hmem]
    · by_cases heq : task = old
      · simp [heq]
      · simp [hmem, heq]

/-- A task's state with another outcome is what storing an outcome leaves of it. -/
theorem getElem?_store :
    (tasks.modify task ({ · with outcome }))[other]? =
      if task = other then tasks[other]?.map ({ · with outcome }) else tasks[other]? := by
  rw [Std.ExtTreeMap.getElem?_modify]
  simp only [Std.LawfulEqCmp.compare_eq_iff_eq]
  by_cases heq : task = other
  · subst heq
    rfl
  · rw [if_neg heq, if_neg heq]

theorem Named.store (hnamed : Named tasks) : Named (tasks.modify task ({ · with outcome })) := by
  intro other state hstate
  rw [getElem?_store] at hstate
  split at hstate
  · obtain ⟨old, hold, rfl⟩ := Option.map_eq_some_iff.mp hstate
    exact hnamed other old hold
  · exact hnamed other state hstate

/-- With `task` ended as well, the ended ones are the old ones and `task`. -/
theorem ended_store (hnamed : Named tasks) (hstate : tasks[task]? = some state)
    (hends : outcome ≠ .running) :
    (Registry.ended (tasks.modify task ({ · with outcome }))).toFinset =
      insert task (Registry.ended tasks).toFinset := by
  ext other
  rw [Finset.mem_insert, List.mem_toFinset, List.mem_toFinset, mem_ended hnamed.store,
    mem_ended hnamed]
  by_cases heq : task = other
  · subst heq
    rw [getElem?_store, if_pos rfl, hstate]
    exact ⟨fun _ => Or.inl rfl, fun _ => ⟨_, rfl, hends⟩⟩
  · rw [getElem?_store, if_neg heq, or_iff_right (Ne.symm heq)]

/-- **What ending a download leaves**: those that had ended and `task` are cut down to the
`keepEnded` that started last, and nobody else's state is touched. -/
theorem getElem?_endAs (hnamed : Named registry.tasks) (hstate : registry.tasks[task]? = some state)
    (hends : outcome ≠ .running) :
    (registry.endAs task outcome).tasks[other]? =
      let ended := insert task (Registry.ended registry.tasks).toFinset
      if other ∈ ended ∧ other ∉ top keepEnded ended then none
      else if task = other then some { state with outcome }
      else registry.tasks[other]? := by
  dsimp only [Registry.endAs]
  rw [getElem?_foldl_erase]
  simp only [mem_take_ascending (pairwise_ended hnamed.store), ← List.mem_toFinset,
    ended_store hnamed hstate hends, getElem?_store]
  split
  · rfl
  · by_cases heq : task = other
    · subst heq
      rw [if_pos rfl, if_pos rfl, hstate]
      rfl
    · rw [if_neg heq, if_neg heq]

section EndAs

variable (hnamed : Named registry.tasks) (hstate : registry.tasks[task]? = some state)
  (hends : outcome ≠ .running)

include hnamed hstate hends

/-- What is left of the one that ended is its state with the outcome. -/
theorem endAs_self {now : TaskState} (hnow : (registry.endAs task outcome).tasks[task]? = some now) :
    now = { state with outcome } := by
  rw [getElem?_endAs hnamed hstate hends] at hnow
  dsimp only at hnow
  split at hnow
  · cases hnow
  · rw [if_pos rfl] at hnow
    exact (Option.some.inj hnow).symm

/-- Nobody else's state is touched but those of ended ones that are pruned. -/
theorem endAs_other (hne : other ≠ task) :
    (registry.endAs task outcome).tasks[other]? = registry.tasks[other]? ∨
      (registry.endAs task outcome).tasks[other]? = none ∧
        ∃ old, registry.tasks[other]? = some old ∧ old.outcome ≠ .running := by
  rw [getElem?_endAs hnamed hstate hends]
  dsimp only
  split
  · rename_i hpruned
    refine Or.inr ⟨rfl, (mem_ended hnamed).mp ?_⟩
    exact List.mem_toFinset.mp ((Finset.mem_insert.mp hpruned.1).resolve_left hne)
  · exact Or.inl (if_neg (Ne.symm hne))

theorem Named.endAs : Named (registry.endAs task outcome).tasks := by
  intro other now hnow
  by_cases heq : other = task
  · subst heq
    rw [endAs_self hnamed hstate hends hnow]
    exact hnamed other state hstate
  · rcases endAs_other hnamed hstate hends heq with hsame | ⟨hgone, -⟩
    · exact hnamed other now (hsame.symm.trans hnow)
    · rw [hgone] at hnow
      cases hnow

/-- Of those that have ended, the `keepEnded` that started last are kept. -/
theorem ended_endAs :
    (Registry.ended (registry.endAs task outcome).tasks).toFinset =
      top keepEnded (insert task (Registry.ended registry.tasks).toFinset) := by
  ext other
  rw [List.mem_toFinset, mem_ended (Named.endAs hnamed hstate hends)]
  constructor
  · rintro ⟨now, hnow, hended⟩
    have hmem : other ∈ insert task (Registry.ended registry.tasks).toFinset := by
      by_cases heq : other = task
      · exact heq ▸ Finset.mem_insert_self _ _
      · rcases endAs_other hnamed hstate hends heq with hsame | ⟨hgone, -⟩
        · exact Finset.mem_insert_of_mem (List.mem_toFinset.mpr
            ((mem_ended hnamed).mpr ⟨now, hsame.symm.trans hnow, hended⟩))
        · rw [hgone] at hnow
          cases hnow
    rw [getElem?_endAs hnamed hstate hends] at hnow
    dsimp only at hnow
    split at hnow
    · cases hnow
    · rename_i hspared
      by_contra hover
      exact hspared ⟨hmem, hover⟩
  · intro hmem
    rw [getElem?_endAs hnamed hstate hends]
    dsimp only
    rw [if_neg fun hpruned => hpruned.2 hmem]
    by_cases heq : other = task
    · rw [if_pos heq.symm]
      exact ⟨_, rfl, hends⟩
    · rw [if_neg (Ne.symm heq)]
      exact (mem_ended hnamed).mp (List.mem_toFinset.mp
        ((Finset.mem_insert.mp (mem_top.mp hmem).1).resolve_left heq))

end EndAs

end Pruning

end Tasks

end Distlib
