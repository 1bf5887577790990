import Distlib.Api.Tasks

/-!
# Whoever hears a download end

Each download ends once, and says so once. `Course` is where one stands between being
started and having said so, by what its handle still has to do: nothing is stored or told of
the ending, or it is stored and about to be told, or it has been told. One step moves one
download along its course and does nothing to the others', except that what ending it prunes
may be another's.

What the registry keeps of the ended ones follows from the log alone (`Sound.kept`), and so
does who is still answered.
-/

namespace Distlib

open OrdMap Ranking GuardedRun

namespace Tasks

/-! ## What has happened -/

/-- Which download it is about. -/
def Happening.task : Happening → TaskId
  | .ended task _ => task
  | .published (.downloadProgress task _ _) => task
  | .published (.downloadFinished task _) => task
  | .published (.downloadFailed task _) => task

/-- The download whose ending is published, if it is an ending. -/
def Event.ending : Event → Option TaskId
  | .downloadProgress _ _ _ => none
  | .downloadFinished task _ => some task
  | .downloadFailed task _ => some task

/-- The downloads that have ended, in the order they did. -/
def endedIn (log : List Happening) : List TaskId :=
  log.filterMap fun
    | .ended task _ => some task
    | .published _ => none

/-- The endings of `task` that were published. -/
def endingsOf (task : TaskId) (log : List Happening) : List Event :=
  log.filterMap fun
    | .ended _ _ => none
    | .published event => if event.ending = some task then some event else none

/-- What is published of a download that ended with `outcome`. -/
def Event.of (task : TaskId) (item : ItemId) : Outcome → Event
  | .finished _ => .downloadFinished task item
  | _ => .downloadFailed task item

section Log

variable {task : TaskId} {item : ItemId} {outcome : Outcome} {log more : List Happening}

@[simp] theorem ending_of : (Event.of task item outcome).ending = some task := by
  cases outcome <;> rfl

@[simp] theorem task_of : (Happening.published (.of task item outcome)).task = task := by
  cases outcome <;> rfl

theorem endedIn_append : endedIn (log ++ more) = endedIn log ++ endedIn more :=
  List.filterMap_append

theorem endingsOf_append : endingsOf task (log ++ more) = endingsOf task log ++ endingsOf task more :=
  List.filterMap_append

theorem mem_endedIn : task ∈ endedIn log ↔ ∃ outcome, .ended task outcome ∈ log := by
  rw [endedIn, List.mem_filterMap]
  constructor
  · rintro ⟨happening, hmem, heq⟩
    cases happening with
    | ended other outcome =>
      obtain rfl := Option.some.inj heq
      exact ⟨outcome, hmem⟩
    | published event => cases heq
  · rintro ⟨outcome, hmem⟩
    exact ⟨_, hmem, rfl⟩

/-- What is about another says nothing of a download's ending. -/
theorem endedIn_of_aside {other : TaskId} (hmore : ∀ happening ∈ more, happening.task = task)
    (hne : other ≠ task) : other ∉ endedIn more := by
  intro hmem
  obtain ⟨outcome, hended⟩ := mem_endedIn.mp hmem
  exact hne (hmore _ hended)

theorem endingsOf_of_aside {other : TaskId} (hmore : ∀ happening ∈ more, happening.task = task)
    (hne : other ≠ task) : endingsOf other more = [] := by
  rw [endingsOf, List.filterMap_eq_nil_iff]
  intro happening hmem
  have habout := hmore happening hmem
  cases happening with
  | ended => rfl
  | published event =>
    refine if_neg fun hending => hne ?_
    cases event with
    | downloadProgress => cases hending
    | downloadFinished => exact (Option.some.inj hending).symm.trans habout
    | downloadFailed => exact (Option.some.inj hending).symm.trans habout

end Log

/-! ## Where a download stands -/

/-- What a handle that has not ended its download may have to do: reports, and at the end of
them nothing, or to be dropped, or to end it with an outcome, publish that, and go. -/
inductive Due (task : TaskId) (item : ItemId) : List Action → Prop where
  | nothing : Due task item []
  | report {action : Action} {rest : List Action}
      (reports : action = .record ∨ action = .publishProgress ∨ action = .publishIfDue)
      (due : Due task item rest) : Due task item (action :: rest)
  | drop : Due task item [.drop]
  | ending {outcome : Outcome} {last : Action} (ends : outcome ≠ .running)
      (goes : last = .drop ∨ last = .free) :
      Due task item [.endAs outcome, .publish (.of task item outcome), last]

/-- `task` is running: nothing of an ending is stored or told. -/
structure Working (world : World) (task : TaskId) (download : Download) (toDo : List Action)
    (state : TaskState) : Prop where
  held : world.handles[task]? = some ⟨download, toDo⟩
  named : download.taskId = task
  unended : download.ended = false
  due : Due task download.itemId toDo
  running : task ∉ endedIn world.log
  untold : endingsOf task world.log = []
  stored : world.registry.tasks[task]? = some state
  runs : state.outcome = .running

/-- Where `task` stands. -/
inductive Course (world : World) (task : TaskId) : Prop where
  /-- it is running -/
  | working (download : Download) (toDo : List Action) (state : TaskState)
      (works : Working world task download toDo state)
  /-- its ending is stored, and about to be published -/
  | announcing (download : Download) (outcome : Outcome) (item : ItemId) (last : Action)
      (held : world.handles[task]? = some ⟨download, [.publish (.of task item outcome), last]⟩)
      (named : download.taskId = task) (ended : download.ended = true)
      (goes : last = .drop ∨ last = .free) (ends : outcome ≠ .running)
      (recorded : .ended task outcome ∈ world.log) (untold : endingsOf task world.log = [])
      (stored : ∀ state, world.registry.tasks[task]? = some state → state.outcome = outcome)
  /-- its ending has been published -/
  | told (outcome : Outcome) (item : ItemId)
      (leaves : ∀ handle, world.handles[task]? = some handle →
        handle.download.taskId = task ∧ handle.download.ended = true ∧
          (handle.toDo = [.drop] ∨ handle.toDo = [.free]))
      (ends : outcome ≠ .running) (recorded : .ended task outcome ∈ world.log)
      (told : endingsOf task world.log = [.of task item outcome])
      (stored : ∀ state, world.registry.tasks[task]? = some state → state.outcome = outcome)

/-- The downloads there have been. -/
def World.Started (world : World) (task : TaskId) : Prop := 1 ≤ task ∧ task ≤ world.registry.next

/-- What holds whatever has happened. -/
structure Sound (world : World) : Prop where
  unstarted : ∀ task, ¬world.Started task → world.handles[task]? = none ∧
    world.registry.tasks[task]? = none ∧ task ∉ endedIn world.log ∧ endingsOf task world.log = []
  course : ∀ task, world.Started task → Course world task
  named : Named world.registry.tasks
  kept : (Registry.ended world.registry.tasks).toFinset = top keepEnded (endedIn world.log).toFinset
  once : (endedIn world.log).Nodup

theorem sound_new : Sound .new where
  unstarted task _ := ⟨rfl, rfl, List.not_mem_nil, rfl⟩
  course task hstarted := absurd hstarted.2 (Nat.not_le.mpr hstarted.1)
  named task state hstate := by cases hstate
  kept := rfl
  once := List.nodup_nil

/-! ## What a step leaves of the others -/

/-- `later` is `world` but for what is `task`'s, and for ended ones that were pruned. -/
structure Aside (world later : World) (task : TaskId) : Prop where
  handles : ∀ other, other ≠ task → later.handles[other]? = world.handles[other]?
  tasks : ∀ other, other ≠ task →
    later.registry.tasks[other]? = world.registry.tasks[other]? ∨
      later.registry.tasks[other]? = none ∧
        ∃ state, world.registry.tasks[other]? = some state ∧ state.outcome ≠ .running
  log : ∃ more, later.log = world.log ++ more ∧ ∀ happening ∈ more, happening.task = task

section Aside

variable {world later : World} {task other : TaskId}

theorem Aside.endedIn (h : Aside world later task) (hne : other ≠ task) :
    other ∈ endedIn later.log ↔ other ∈ endedIn world.log := by
  obtain ⟨more, hlog, hmore⟩ := h.log
  rw [hlog, endedIn_append, List.mem_append, or_iff_left (endedIn_of_aside hmore hne)]

theorem Aside.endingsOf (h : Aside world later task) (hne : other ≠ task) :
    endingsOf other later.log = endingsOf other world.log := by
  obtain ⟨more, hlog, hmore⟩ := h.log
  rw [hlog, endingsOf_append, endingsOf_of_aside hmore hne, List.append_nil]

theorem Aside.recorded (h : Aside world later task) {outcome : Outcome}
    (hrecorded : .ended other outcome ∈ world.log) : .ended other outcome ∈ later.log := by
  obtain ⟨more, hlog, -⟩ := h.log
  rw [hlog]
  exact List.mem_append_left _ hrecorded

/-- Whatever state there still is of another is what there was. -/
theorem Aside.stored (h : Aside world later task) (hne : other ≠ task) {state : TaskState}
    (hstate : later.registry.tasks[other]? = some state) :
    world.registry.tasks[other]? = some state := by
  rcases h.tasks other hne with hsame | ⟨hgone, -⟩
  · exact hsame.symm.trans hstate
  · rw [hgone] at hstate
    cases hstate

/-- The others stay where they stand. -/
theorem Course.aside (hcourse : Course world other) (h : Aside world later task)
    (hne : other ≠ task) : Course later other := by
  cases hcourse with
  | working download toDo state works =>
    refine .working download toDo state ⟨(h.handles other hne).trans works.held, works.named,
      works.unended, works.due, mt (h.endedIn hne).mp works.running,
      (h.endingsOf hne).trans works.untold, ?_, works.runs⟩
    rcases h.tasks other hne with hsame | ⟨-, old, hold, hended⟩
    · exact hsame.trans works.stored
    · obtain rfl := Option.some.inj (hold.symm.trans works.stored)
      exact absurd works.runs hended
  | announcing download outcome item last held named ended goes ends recorded untold stored =>
    exact .announcing download outcome item last ((h.handles other hne).trans held) named ended
      goes ends (h.recorded recorded) ((h.endingsOf hne).trans untold)
      fun state hstate => stored state (h.stored hne hstate)
  | told outcome item leaves ends recorded told stored =>
    refine .told outcome item ?_ ends (h.recorded recorded) ((h.endingsOf hne).trans told)
      fun state hstate => stored state (h.stored hne hstate)
    intro handle hheld
    exact leaves handle ((h.handles other hne).symm.trans hheld)

/-- A step of `task`'s that is sound for `task` is sound. -/
theorem Sound.aside (h : Sound world) (haside : Aside world later task)
    (hnext : later.registry.next = world.registry.next) (hstarted : world.Started task) (hcourse : Course later task)
    (hnamed : Named later.registry.tasks)
    (hkept : (Registry.ended later.registry.tasks).toFinset =
      top keepEnded (Tasks.endedIn later.log).toFinset)
    (honce : (Tasks.endedIn later.log).Nodup) : Sound later where
  unstarted other hunstarted := by
    rw [World.Started, hnext] at hunstarted
    have hne : other ≠ task := fun heq => hunstarted (heq ▸ hstarted)
    obtain ⟨hhandle, htask, hended, htold⟩ := h.unstarted other hunstarted
    refine ⟨(haside.handles other hne).trans hhandle, ?_, mt (haside.endedIn hne).mp hended,
      (haside.endingsOf hne).trans htold⟩
    rcases haside.tasks other hne with hsame | ⟨hgone, -⟩
    · exact hsame.trans htask
    · exact hgone
  course other hother := by
    rw [World.Started, hnext] at hother
    by_cases heq : other = task
    · exact heq ▸ hcourse
    · exact (h.course other hother).aside haside heq
  named := hnamed
  kept := hkept
  once := honce

/-- A step of `task`'s that the registry has no part in. -/
theorem Sound.unstored (h : Sound world) (haside : Aside world later task)
    (hregistry : later.registry = world.registry) (hstarted : world.Started task)
    (hcourse : Course later task)
    (hended : Tasks.endedIn later.log = Tasks.endedIn world.log) : Sound later := by
  refine h.aside haside (congrArg _ hregistry) hstarted hcourse ?_ ?_ ?_
  · rw [hregistry]
    exact h.named
  · rw [hregistry, hended]
    exact h.kept
  · rw [hended]
    exact h.once

end Aside

/-! ## One step -/

section Step

variable {world : World} {task : TaskId} {download : Download} {toDo rest : List Action}
  {state : TaskState}

theorem getElem?_insert_other {V : Type*} {map : OrdMap TaskId V} {v : V} {other : TaskId}
    (hne : other ≠ task) : (map.insert task v)[other]? = map[other]? := by
  rw [Std.ExtTreeMap.getElem?_insert, if_neg]
  exact fun heq => hne (Std.LawfulEqCmp.eq_of_compare heq).symm

/-- What the registry has no part in: a handle is replaced or gone, and something about its
download may be told. -/
theorem aside_handles {handles : OrdMap TaskId Handle} {more : List Happening}
    (hhandles : ∀ other, other ≠ task → handles[other]? = world.handles[other]?)
    (hmore : ∀ happening ∈ more, happening.task = task) :
    Aside world { world with handles, log := world.log ++ more } task where
  handles := hhandles
  tasks _ _ := Or.inl rfl
  log := ⟨more, rfl, hmore⟩

/-- A handle that is there belongs to a download that was started. -/
theorem Sound.started (h : Sound world) {handle : Handle}
    (hheld : world.handles[task]? = some handle) : world.Started task := by
  by_contra hunstarted
  rw [(h.unstarted task hunstarted).1] at hheld
  cases hheld

theorem Sound.startDownload (h : Sound world) (item : ItemId) (title : Option String)
    (filesTotal bytesTotal : ℕ) : Sound (world.startDownload item title filesTotal bytesTotal) := by
  have hnew : ¬world.Started (world.registry.next + 1) :=
    fun hstarted => Nat.not_succ_le_self _ hstarted.2
  obtain ⟨-, htask, hended, htold⟩ := h.unstarted _ hnew
  have haside : Aside world (world.startDownload item title filesTotal bytesTotal)
      (world.registry.next + 1) :=
    ⟨fun _ => getElem?_insert_other, fun _ hne => Or.inl (getElem?_insert_other hne), [],
      (List.append_nil _).symm, fun _ hmem => absurd hmem List.not_mem_nil⟩
  have hnamed : Named (world.startDownload item title filesTotal bytesTotal).registry.tasks := by
    intro other state hstate
    by_cases heq : other = world.registry.next + 1
    · subst heq
      rw [World.startDownload, Std.ExtTreeMap.getElem?_insert_self] at hstate
      exact congrArg TaskState.taskId (Option.some.inj hstate).symm
    · exact h.named other state (haside.stored heq hstate)
  refine ⟨?_, ?_, hnamed, ?_, h.once⟩
  · intro other hunstarted
    have hne : other ≠ world.registry.next + 1 :=
      fun heq => hunstarted ⟨heq ▸ Nat.le_add_left 1 _, heq.le⟩
    obtain ⟨hhandle, hstate, hrest⟩ := h.unstarted other
      fun hstarted => hunstarted ⟨hstarted.1, Nat.le_succ_of_le hstarted.2⟩
    exact ⟨(haside.handles other hne).trans hhandle, (getElem?_insert_other hne).trans hstate, hrest⟩
  · rintro other ⟨hone, hle⟩
    by_cases heq : other = world.registry.next + 1
    · subst heq
      exact .working _ _ _ ⟨Std.ExtTreeMap.getElem?_insert_self, rfl, rfl, .nothing, hended, htold,
        Std.ExtTreeMap.getElem?_insert_self, rfl⟩
    · exact (h.course other ⟨hone, Nat.le_of_lt_succ (lt_of_le_of_ne hle heq)⟩).aside haside heq
  · refine Eq.trans ?_ h.kept
    ext other
    rw [List.mem_toFinset, List.mem_toFinset, mem_ended hnamed, mem_ended h.named]
    by_cases heq : other = world.registry.next + 1
    · subst heq
      rw [htask, World.startDownload, Std.ExtTreeMap.getElem?_insert_self]
      constructor
      · rintro ⟨state, hstate, hends⟩
        exact absurd (congrArg TaskState.outcome (Option.some.inj hstate).symm) hends
      · rintro ⟨state, hstate, -⟩
        cases hstate
    · rw [World.startDownload, getElem?_insert_other heq]

/-- A running download's handle goes on to something else that it may have to do. -/
theorem Sound.working (h : Sound world) (hworks : Working world task download toDo state)
    (handle : Handle) (more : List Happening) (hnamed : handle.download.taskId = task)
    (hunended : handle.download.ended = false)
    (hdue : Due task handle.download.itemId handle.toDo)
    (hmore : ∀ happening ∈ more, happening.task = task) (hended : endedIn more = [])
    (huntold : endingsOf task more = []) :
    Sound { world with
      handles := world.handles.insert task handle
      log := world.log ++ more } := by
  have hsame : endedIn (world.log ++ more) = endedIn world.log := by
    rw [endedIn_append, hended, List.append_nil]
  refine h.unstored (aside_handles (fun _ => getElem?_insert_other) hmore) rfl
    (h.started hworks.held) (.working _ _ _ ⟨Std.ExtTreeMap.getElem?_insert_self, hnamed, hunended,
      hdue, ?_, ?_, hworks.stored, hworks.runs⟩) hsame
  · exact fun hmem => hworks.running (hsame ▸ hmem)
  · rw [endingsOf_append, hworks.untold, huntold]
    rfl

/-- Storing progress leaves every outcome as it is. -/
theorem getElem?_record {registry : Registry} {progress : Progress} (other : TaskId) :
    (registry.record task progress).tasks[other]? =
      if task = other then registry.tasks[other]?.map ({ · with progress })
      else registry.tasks[other]? := by
  rw [Registry.record, Std.ExtTreeMap.getElem?_modify]
  simp only [Std.LawfulEqCmp.compare_eq_iff_eq]
  by_cases heq : task = other
  · subst heq
    rfl
  · rw [if_neg heq, if_neg heq]

theorem Sound.record (h : Sound world) (hworks : Working world task download toDo state)
    (hdue : Due task download.itemId rest) :
    Sound { world with
      registry := world.registry.record task download.progress
      handles := world.handles.insert task ⟨download, rest⟩ } := by
  have hother : ∀ other, other ≠ task →
      (world.registry.record task download.progress).tasks[other]? = world.registry.tasks[other]? :=
    fun other hne => (getElem?_record other).trans (if_neg (Ne.symm hne))
  have hself : (world.registry.record task download.progress).tasks[task]? =
      some { state with progress := download.progress } := by
    rw [getElem?_record, if_pos rfl, hworks.stored]
    rfl
  have hnamed : Named (world.registry.record task download.progress).tasks := by
    intro other now hnow
    by_cases heq : other = task
    · subst heq
      obtain rfl := Option.some.inj (hself.symm.trans hnow)
      exact h.named other state hworks.stored
    · exact h.named other now ((hother other heq).symm.trans hnow)
  refine h.aside ⟨fun _ => getElem?_insert_other, fun other hne => Or.inl (hother other hne), [],
    (List.append_nil _).symm, fun _ hmem => absurd hmem List.not_mem_nil⟩ rfl
    (h.started hworks.held) (.working _ _ _ ⟨Std.ExtTreeMap.getElem?_insert_self, hworks.named,
      hworks.unended, hdue, hworks.running, hworks.untold, hself, hworks.runs⟩) hnamed ?_ h.once
  refine Eq.trans ?_ h.kept
  ext other
  rw [List.mem_toFinset, List.mem_toFinset, mem_ended hnamed, mem_ended h.named]
  by_cases heq : other = task
  · subst heq
    rw [hself, hworks.stored]
    constructor
    · rintro ⟨now, hnow, hends⟩
      obtain rfl := Option.some.inj hnow
      exact absurd hworks.runs hends
    · rintro ⟨now, hnow, hends⟩
      obtain rfl := Option.some.inj hnow
      exact absurd hworks.runs hends
  · rw [hother other heq]

/-- **An ending is stored**: the registry goes on keeping those that started last. -/
theorem Sound.endAs (h : Sound world) {outcome : Outcome} {last : Action}
    (hworks : Working world task download toDo state) (hends : outcome ≠ .running)
    (hgoes : last = .drop ∨ last = .free) :
    Sound {
      registry := world.registry.endAs task outcome
      handles := world.handles.insert task
        ⟨{ download with ended := true }, [.publish (.of task download.itemId outcome), last]⟩
      log := world.log ++ [.ended task outcome] } := by
  have hlog : endedIn (world.log ++ [.ended task outcome]) = endedIn world.log ++ [task] :=
    endedIn_append
  refine h.aside ⟨fun _ => getElem?_insert_other,
    fun _ => endAs_other h.named hworks.stored hends, [.ended task outcome], rfl, ?_⟩ rfl
    (h.started hworks.held) (.announcing _ outcome download.itemId last
      Std.ExtTreeMap.getElem?_insert_self hworks.named rfl hgoes hends ?_ ?_ ?_)
    (h.named.endAs hworks.stored hends) ?_ ?_
  · intro happening hmem
    rw [List.mem_singleton.mp hmem]
    rfl
  · exact List.mem_append_right _ List.mem_cons_self
  · rw [endingsOf_append, hworks.untold]
    rfl
  · intro now hnow
    rw [endAs_self h.named hworks.stored hends hnow]
  · have hset : (endedIn (world.log ++ [.ended task outcome])).toFinset =
        insert task (endedIn world.log).toFinset := by
      rw [hlog]
      ext other
      simp
    rw [ended_endAs h.named hworks.stored hends, hset, h.kept]
    exact top_insert_top fun hmem => hworks.running (List.mem_toFinset.mp hmem)
  · rw [hlog]
    refine List.nodup_append.mpr ⟨h.once, List.nodup_singleton _, ?_⟩
    intro other hother again hagain heq
    obtain rfl := List.mem_singleton.mp hagain
    exact hworks.running (heq ▸ hother)

/-- A stored ending is published. -/
theorem Sound.publish (h : Sound world) {outcome : Outcome} {item : ItemId} {last : Action}
    (hheld : world.handles[task]? = some ⟨download, [.publish (.of task item outcome), last]⟩)
    (hnamed : download.taskId = task) (hended : download.ended = true)
    (hgoes : last = .drop ∨ last = .free) (hends : outcome ≠ .running)
    (hrecorded : .ended task outcome ∈ world.log)
    (huntold : endingsOf task world.log = [])
    (hstored : ∀ state, world.registry.tasks[task]? = some state → state.outcome = outcome) :
    Sound { world with
      handles := world.handles.insert task ⟨download, [last]⟩
      log := world.log ++ [.published (.of task item outcome)] } := by
  refine h.unstored (aside_handles (fun _ => getElem?_insert_other) ?_) rfl (h.started hheld)
    (.told outcome item ?_ hends (List.mem_append_left _ hrecorded) ?_ hstored) ?_
  · intro happening hmem
    rw [List.mem_singleton.mp hmem, task_of]
  · intro handle hhandle
    obtain rfl := Option.some.inj (Std.ExtTreeMap.getElem?_insert_self.symm.trans hhandle)
    refine ⟨hnamed, hended, ?_⟩
    rcases hgoes with rfl | rfl
    · exact Or.inl rfl
    · exact Or.inr rfl
  · rw [endingsOf_append, huntold]
    simp [endingsOf]
  · rw [endedIn_append]
    exact List.append_nil _

/-- What is left to do once the ending has been told changes nothing others can see. -/
theorem Sound.leave (h : Sound world) (hstarted : world.Started task) {outcome : Outcome}
    {item : ItemId} {handles : OrdMap TaskId Handle}
    (hhandles : ∀ other, other ≠ task → handles[other]? = world.handles[other]?)
    (hleaves : ∀ handle, handles[task]? = some handle → handle.download.taskId = task ∧
      handle.download.ended = true ∧ (handle.toDo = [.drop] ∨ handle.toDo = [.free]))
    (hends : outcome ≠ .running) (hrecorded : .ended task outcome ∈ world.log)
    (htold : endingsOf task world.log = [.of task item outcome])
    (hstored : ∀ state, world.registry.tasks[task]? = some state → state.outcome = outcome) :
    Sound { world with handles } :=
  h.unstored ⟨hhandles, fun _ _ => Or.inl rfl, [], (List.append_nil _).symm,
    fun _ hmem => absurd hmem List.not_mem_nil⟩ rfl hstarted
    (.told outcome item hleaves hends hrecorded htold hstored) rfl

/-- No method does anything but report, and at most once, at its end, end the download. -/
theorem due_call (download : Download) (call : Call) :
    Due download.taskId download.itemId (Handle.call download call).toDo := by
  cases call with
  | progress bytesDone => exact .report (.inl rfl) (.report (.inr (.inr rfl)) .nothing)
  | fileWritten bytesDone => exact .report (.inl rfl) (.report (.inr (.inl rfl)) .nothing)
  | finish files =>
    exact .report (.inl rfl) (.report (.inr (.inl rfl))
      (@Due.ending _ _ (.finished files) _ (fun heq => by cases heq) (.inl rfl)))
  | fail error => exact @Due.ending _ _ (.failed error) _ (fun heq => by cases heq) (.inl rfl)
  | drop => exact .drop

/-- Nor does it change whose handle it is, or that the download has not ended. -/
theorem download_call (download : Download) (call : Call) :
    (Handle.call download call).download.taskId = download.taskId ∧
      (Handle.call download call).download.itemId = download.itemId ∧
      (Handle.call download call).download.ended = download.ended := by
  cases call <;> exact ⟨rfl, rfl, rfl⟩

/-- A method is called on a handle that no other method holds. -/
theorem Sound.call (h : Sound world) (hheld : world.handles[task]? = some ⟨download, []⟩)
    (call : Call) :
    Sound { world with handles := world.handles.insert task (Handle.call download call) } := by
  cases h.course task (h.started hheld) with
  | working other toDo state works =>
    obtain ⟨rfl, rfl⟩ := Handle.mk.inj (Option.some.inj (works.held.symm.trans hheld))
    obtain ⟨htask, hitem, hended⟩ := download_call other call
    have hdue := due_call other call
    rw [← hitem, works.named] at hdue
    have hcalled := h.working works _ [] (htask.trans works.named)
      (hended.trans works.unended) hdue (fun _ hmem => absurd hmem List.not_mem_nil) rfl rfl
    rw [List.append_nil] at hcalled
    exact hcalled
  | announcing other outcome item last held =>
    cases held.symm.trans hheld
  | told outcome item leaves =>
    rcases (leaves _ hheld).2.2 with hdue | hdue <;> cases hdue

/-- A running download goes on. -/
theorem Sound.actWorking (h : Sound world) {action : Action}
    (hworks : Working world task download (action :: rest) state) (now : ℕ) :
    Sound (world.act download rest now action) := by
  obtain rfl := hworks.named
  have hpublish : Due download.taskId download.itemId rest →
      Sound (world.publishProgress download rest now) := by
    intro hdue
    refine h.working hworks ⟨{ download with published := some now }, rest⟩ _ rfl hworks.unended
      hdue ?_ rfl rfl
    intro happening hmem
    rw [List.mem_singleton.mp hmem]
    rfl
  have hsilent : ∀ toDo, Due download.taskId download.itemId toDo →
      Sound { world with handles := world.handles.insert download.taskId ⟨download, toDo⟩ } := by
    intro toDo hdue
    have hlater := h.working hworks ⟨download, toDo⟩ [] rfl hworks.unended hdue
      (fun _ hmem => absurd hmem List.not_mem_nil) rfl rfl
    rw [List.append_nil] at hlater
    exact hlater
  cases hworks.due with
  | report reports due =>
    rcases reports with rfl | rfl | rfl
    · exact h.record hworks due
    · exact hpublish due
    · rw [World.act]
      split
      · exact hpublish due
      · exact hsilent rest due
  | drop =>
    rw [World.act, Download.drop, hworks.unended]
    exact hsilent _ (.ending (fun heq => by cases heq) (.inr rfl))
  | ending ends goes => exact h.endAs hworks ends goes

/-- The next thing a handle has to do is done. -/
theorem Sound.act (h : Sound world) {action : Action}
    (hheld : world.handles[task]? = some ⟨download, action :: rest⟩) (now : ℕ) :
    Sound (world.act download rest now action) := by
  cases h.course task (h.started hheld) with
  | working other toDo state works =>
    obtain ⟨rfl, rfl⟩ := Handle.mk.inj (Option.some.inj (works.held.symm.trans hheld))
    exact h.actWorking works now
  | announcing other outcome item last held named ended goes ends recorded untold stored =>
    obtain ⟨rfl, hdue⟩ := Handle.mk.inj (Option.some.inj (held.symm.trans hheld))
    obtain ⟨rfl, rfl⟩ := List.cons.inj hdue
    obtain rfl := named
    exact h.publish held rfl ended goes ends recorded untold stored
  | told outcome item leaves ends recorded told stored =>
    obtain ⟨rfl, hended, hdue⟩ := leaves _ hheld
    have hstarted := h.started hheld
    rcases hdue with hdue | hdue <;> obtain ⟨rfl, rfl⟩ := List.cons.inj hdue
    · refine h.leave hstarted (fun _ => getElem?_insert_other) ?_ ends recorded told stored
      intro handle hhandle
      obtain rfl := Option.some.inj (Std.ExtTreeMap.getElem?_insert_self.symm.trans hhandle)
      rw [Download.drop, hended]
      exact ⟨rfl, rfl, .inr rfl⟩
    · refine h.leave hstarted ?_ ?_ ends recorded told stored
      · intro other hne
        rw [Std.ExtTreeMap.getElem?_erase, if_neg]
        exact fun heq => hne (Std.LawfulEqCmp.eq_of_compare heq).symm
      · intro handle hhandle
        rw [Std.ExtTreeMap.getElem?_erase_self] at hhandle
        cases hhandle

theorem Sound.step (h : Sound world) (step : Step) : Sound (world.step step) := by
  cases step with
  | startDownload item title filesTotal bytesTotal =>
    exact h.startDownload item title filesTotal bytesTotal
  | call task call =>
    rw [World.step]
    split
    · rename_i download hheld
      exact h.call hheld call
    · exact h
  | goOn task now =>
    rw [World.step]
    split
    · rename_i download action rest hheld
      exact h.act hheld now
    · exact h

end Step

/-- Whatever happens, from when the node starts. -/
theorem sound_exec (steps : List Step) : Sound (exec World.step .new steps) :=
  exec_invariant (fun _ step h => h.step step) steps sound_new

/-! ## Asking about what was heard -/

section Asking

variable {world : World} {task : TaskId}

/-- How many downloads that started after `task` have ended. -/
def overtaken (task : TaskId) (log : List Happening) : ℕ :=
  (endedIn log).countP (task < ·)

/-- The event is how a download with this outcome ends. -/
def Event.tells : Event → Outcome → Prop
  | .downloadFinished _ _, .finished _ => True
  | .downloadFailed _ _, .failed _ => True
  | _, _ => False

/-- Whoever hears a download end can ask about it: the ending is published once, what is asked
from then on is answered with the outcome that was heard until `keepEnded` further downloads
have ended, what runs is not pruned, and no more than `keepEnded` ended ones are kept. -/
structure KeepsWord (world : World) : Prop where
  /-- no download publishes two endings, and one that is through has published one -/
  once : ∀ task, world.Started task → (endingsOf task world.log).length ≤ 1 ∧
    (world.handles[task]? = none → (endingsOf task world.log).length = 1)
  answers : ∀ before event after task, world.log = before ++ .published event :: after →
    event.ending = some task → (endedIn after).length < keepEnded →
      ∃ state, world.registry.get task = some state ∧ event.tells state.outcome
  running : ∀ task, world.Started task → task ∉ endedIn world.log →
    ∃ state, world.registry.get task = some state ∧ state.outcome = .running
  bounded : (Registry.ended world.registry.tasks).length ≤ keepEnded

/-- While fewer than `keepEnded` downloads have ended since a download's ending was published,
fewer than `keepEnded` of those that started after it have ended in all. -/
def NotOvertaken (world : World) : Prop :=
  ∀ before event after task, world.log = before ++ .published event :: after →
    event.ending = some task → (endedIn after).length < keepEnded →
      overtaken task world.log < keepEnded

theorem overtaken_eq (honce : (endedIn world.log).Nodup) :
    overtaken task world.log = above (endedIn world.log).toFinset task := by
  rw [overtaken, List.countP_eq_length_filter, length_filter_lt honce]

/-- Whose ending is published has ended as the event says. -/
theorem Sound.tells (h : Sound world) {event : Event} (hheard : .published event ∈ world.log)
    (hending : event.ending = some task) :
    ∃ outcome, .ended task outcome ∈ world.log ∧ event.tells outcome ∧
      ∀ state, world.registry.get task = some state → state.outcome = outcome := by
  have hmem : event ∈ endingsOf task world.log :=
    List.mem_filterMap.mpr ⟨_, hheard, if_pos hending⟩
  have hstarted : world.Started task := by
    by_contra hunstarted
    rw [(h.unstarted task hunstarted).2.2.2] at hmem
    exact absurd hmem List.not_mem_nil
  cases h.course task hstarted with
  | working download toDo state works =>
    rw [works.untold] at hmem
    exact absurd hmem List.not_mem_nil
  | announcing download outcome item last held named ended goes ends recorded untold =>
    rw [untold] at hmem
    exact absurd hmem List.not_mem_nil
  | told outcome item leaves ends recorded told stored =>
    rw [told, List.mem_singleton] at hmem
    subst hmem
    refine ⟨outcome, recorded, ?_, stored⟩
    cases outcome with
    | running => exact absurd rfl ends
    | finished files => trivial
    | failed error => trivial

/-- Whoever the registry has as running has not ended, and the other way round. -/
theorem Sound.runs_iff (h : Sound world) {state : TaskState}
    (hstate : world.registry.get task = some state) :
    state.outcome = .running ↔ world.Started task ∧ task ∉ endedIn world.log := by
  have hstarted : world.Started task := by
    by_contra hunstarted
    cases hstate.symm.trans (h.unstarted task hunstarted).2.1
  rw [and_iff_right hstarted]
  cases h.course task hstarted with
  | working download toDo _ works =>
    obtain rfl := Option.some.inj (works.stored.symm.trans hstate)
    exact ⟨fun _ => works.running, fun _ => works.runs⟩
  | announcing download outcome item last held named ended goes ends recorded untold stored =>
    rw [stored state hstate]
    exact ⟨fun hruns => absurd hruns ends,
      fun hrunning => absurd (mem_endedIn.mpr ⟨outcome, recorded⟩) hrunning⟩
  | told outcome item leaves ends recorded told stored =>
    rw [stored state hstate]
    exact ⟨fun hruns => absurd hruns ends,
      fun hrunning => absurd (mem_endedIn.mpr ⟨outcome, recorded⟩) hrunning⟩

/-- A page that connects is sent the progress of the downloads that have not ended. -/
theorem Sound.mem_running (h : Sound world) {event : Event} :
    event ∈ world.registry.running ↔ ∃ task state, world.registry.get task = some state ∧
      world.Started task ∧ task ∉ endedIn world.log ∧
        event = .downloadProgress task state.itemId state.progress := by
  rw [Registry.running, List.mem_map]
  constructor
  · rintro ⟨state, hmem, rfl⟩
    obtain ⟨hmem, hruns⟩ := List.mem_filter.mp hmem
    obtain ⟨⟨task, state⟩, hlisted, rfl⟩ := List.mem_map.mp hmem
    have hstate := Std.ExtTreeMap.mem_toList_iff_getElem?_eq_some.mp hlisted
    obtain ⟨hstarted, hrunning⟩ := (h.runs_iff hstate).mp (of_decide_eq_true hruns)
    exact ⟨task, state, hstate, hstarted, hrunning, by rw [h.named task state hstate]⟩
  · rintro ⟨task, state, hstate, hstarted, hrunning, rfl⟩
    refine ⟨state, List.mem_filter.mpr ⟨?_, ?_⟩, by rw [h.named task state hstate]⟩
    · exact List.mem_map.mpr ⟨_, Std.ExtTreeMap.mem_toList_iff_getElem?_eq_some.mpr hstate, rfl⟩
    · exact decide_eq_true ((h.runs_iff hstate).mpr ⟨hstarted, hrunning⟩)

/-- A download that has ended is answered for exactly while fewer than `keepEnded` of those
that started after it have ended. -/
theorem Sound.answered_iff (h : Sound world) (hended : task ∈ endedIn world.log) :
    (∃ state, world.registry.get task = some state ∧ state.outcome ≠ .running) ↔
      overtaken task world.log < keepEnded := by
  rw [Registry.get, ← mem_ended h.named, ← List.mem_toFinset, h.kept, mem_top, overtaken_eq h.once]
  exact and_iff_right (List.mem_toFinset.mpr hended)

end Asking

/-- **Whoever hears a download end can ask about it as long as it is not overtaken**, whatever
any number of downloads do and in whatever order: all of the registry's word is kept exactly
while fewer than `keepEnded` of the downloads that started after one have ended by the time
its ending is published, or by the time `keepEnded` further ones have. -/
theorem asked_iff (steps : List Step) :
    KeepsWord (exec World.step .new steps) ↔ NotOvertaken (exec World.step .new steps) := by
  have h := sound_exec steps
  set world := exec World.step .new steps
  constructor
  · intro hword before event after task hlog hending hfew
    obtain ⟨state, hstate, htells⟩ := hword.answers before event after task hlog hending hfew
    obtain ⟨outcome, hrecorded, -⟩ := h.tells (hlog ▸ by simp) hending
    refine (h.answered_iff (mem_endedIn.mpr ⟨outcome, hrecorded⟩)).mp ⟨state, hstate, ?_⟩
    intro hruns
    rw [hruns] at htells
    cases event <;> exact htells
  · intro hcond
    refine ⟨?_, ?_, ?_, ?_⟩
    · intro task hstarted
      cases h.course task hstarted with
      | working download toDo state works =>
        rw [works.untold, works.held]
        exact ⟨Nat.zero_le 1, fun hnone => by cases hnone⟩
      | announcing download outcome item last held named ended goes ends recorded untold =>
        rw [untold, held]
        exact ⟨Nat.zero_le 1, fun hnone => by cases hnone⟩
      | told outcome item leaves ends recorded told =>
        rw [told]
        exact ⟨le_rfl, fun _ => rfl⟩
    · intro before event after task hlog hending hfew
      obtain ⟨outcome, hrecorded, htells, hstored⟩ := h.tells (hlog ▸ by simp) hending
      obtain ⟨state, hstate, -⟩ := (h.answered_iff (mem_endedIn.mpr ⟨outcome, hrecorded⟩)).mpr
        (hcond before event after task hlog hending hfew)
      obtain rfl := hstored state hstate
      exact ⟨state, hstate, htells⟩
    · intro task hstarted hruns
      cases h.course task hstarted with
      | working download toDo state works => exact ⟨state, works.stored, works.runs⟩
      | announcing download outcome item last held named ended goes ends recorded =>
        exact absurd (mem_endedIn.mpr ⟨outcome, recorded⟩) hruns
      | told outcome item leaves ends recorded =>
        exact absurd (mem_endedIn.mpr ⟨outcome, recorded⟩) hruns
    · have hcard : (Registry.ended world.registry.tasks).toFinset.card ≤ keepEnded := by
        rw [h.kept, card_top]
        exact Nat.min_le_left _ _
      rwa [List.toFinset_card_of_nodup ((pairwise_ended h.named).imp fun hlt => hlt.ne)] at hcard

namespace Sample

/-- A download is started, by whoever is next. -/
def started : Step := .startDownload ⟨1⟩ none 2 100

/-- The download of this id fails, and is done with. -/
def fails (task : TaskId) : List Step :=
  [.call task (.fail "nobody had it"), .goOn task 0, .goOn task 0, .goOn task 0, .goOn task 0]

/-- Sixty-five downloads are started, and end in the opposite order. -/
def lastIsFirst : List Step :=
  List.replicate 65 started ++ (List.range 65).flatMap fun i => fails (65 - i)

/-- The first download of sixty-five ends last: its ending has just been published, and asking
about it is answered with nothing. -/
theorem first_not_found : ¬KeepsWord (exec World.step .new lastIsFirst) := by
  intro hword
  obtain ⟨state, hstate, -⟩ := hword.answers _ (.downloadFailed 1 ⟨1⟩) [] 1
    (by decide +kernel : _ = (exec World.step .new lastIsFirst).log.dropLast ++ _) rfl (by decide)
  have hnone : (exec World.step .new lastIsFirst).registry.get 1 = none := by decide +kernel
  rw [hnone] at hstate
  cases hstate

end Sample

end Tasks

end Distlib
