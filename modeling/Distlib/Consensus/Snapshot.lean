import Distlib.Consensus.Roles
import Distlib.Lib.GuardedRun

/-!
# Snapshots do not go back

openraft runs a snapshot builder on a task of its own. The builder copies the
state when it is made and writes its snapshot whenever it gets to it, while the
node applies more entries, installs a newer snapshot from its leader, or resets
the projection altogether. A builder that came late and overwrote what it found
would leave a snapshot behind whose log entries are gone.

Two checks inside the builder's transaction prevent it: it stores nothing over a
snapshot with a later log id, and nothing once the generation has moved. The
second one is needed because a reset *does* go back, and removes the snapshot:
the first check alone would let an older copy in behind it. It works because the
reset moves the generation with the memory, before its own transaction.

The state machine is one worker: an install runs from its first half to its
transaction without an apply, another install or a reset in between. Builders
are under no such order, and neither are applies and a reset. A reset whose
transaction has not committed is still under way, however it ended.

The invariant (`Ordered`) compares the copies *of the current generation* only;
what an older builder holds may be ahead of everything.
-/

namespace Distlib

open GuardedRun

namespace Snapshots

/-! ## The parts a snapshot passes through -/

/-- A node, the builders it has made, and what is under way. -/
structure World where
  inner : Inner
  /-- in the order they were made -/
  builders : List SnapshotBuilder
  /-- the snapshot whose install has reached the memory and not the disk -/
  installing : Option StoredSnapshot
  /-- how many resets have reached the memory and not the disk -/
  resetting : ℕ
  /-- the builder that made the stored snapshot, if one did -/
  storedBy : Option ℕ

inductive Happening : Type where
  | apply (entries : List Entry) (fate : Fate)
  /-- a builder takes its copy -/
  | capture
  /-- the transaction of the `k`-th builder -/
  | build (k : ℕ)
  | installMemory (snapshot : StoredSnapshot)
  | installTransaction
  /-- the transaction of an install fails -/
  | installFailed
  | resetMemory
  | resetTransaction (promotion : Option Promotion)

namespace World

/-- What may happen: Raft applies at increasing log ids and installs at log ids
not behind, one thing at a time, and installs nothing during a reset. -/
def Legal (world : World) : Happening → Prop
  | .apply entries _ =>
    world.installing = none ∧
      (∀ entry ∈ entries, asOf world.inner.applied.lastApplied < asOf (some entry.logId)) ∧
      entries.Pairwise fun a b => a.logId < b.logId
  | .capture => True
  | .build k => k < world.builders.length
  | .installMemory snapshot =>
    world.installing = none ∧ world.resetting = 0 ∧
      asOf world.inner.applied.lastApplied ≤ asOf snapshot.metadata.lastLogId
  | .installTransaction => world.installing.isSome
  | .installFailed => world.installing.isSome
  | .resetMemory => world.installing = none
  | .resetTransaction _ => 0 < world.resetting

instance (world : World) : (happening : Happening) → Decidable (world.Legal happening)
  | .apply _ _ => inferInstanceAs (Decidable (_ ∧ _ ∧ _))
  | .capture => inferInstanceAs (Decidable True)
  | .build _ => inferInstanceAs (Decidable (_ < _))
  | .installMemory _ => inferInstanceAs (Decidable (_ ∧ _ ∧ _))
  | .installTransaction => inferInstanceAs (Decidable (_ = true))
  | .installFailed => inferInstanceAs (Decidable (_ = true))
  | .resetMemory => inferInstanceAs (Decidable (_ = none))
  | .resetTransaction _ => inferInstanceAs (Decidable (_ < _))

/-- The transaction of one of the builders. -/
def build (world : World) (k : ℕ) : World :=
  match world.builders[k]? with
  | none => world
  | some builder =>
    { world with
      inner := world.inner.buildTransaction builder
      storedBy := if world.inner.heldBack builder then world.storedBy else some k }

/-- The transaction of the install under way. -/
def installTransaction (world : World) : World :=
  match world.installing with
  | none => world
  | some snapshot =>
    { world with
      inner := world.inner.installTransaction snapshot, installing := none, storedBy := none }

/-- One happening. -/
def step (sig : Signing) (world : World) : Happening → World
  | .apply entries fate => { world with inner := (world.inner.apply sig entries fate).2 }
  | .capture =>
    let (builder, inner) := world.inner.getSnapshotBuilder
    { world with inner, builders := world.builders ++ [builder] }
  | .build k => world.build k
  | .installMemory snapshot =>
    { world with inner := world.inner.installMemory snapshot, installing := some snapshot }
  | .installTransaction => world.installTransaction
  | .installFailed => { world with installing := none }
  | .resetMemory =>
    { world with inner := world.inner.resetMemory, resetting := world.resetting + 1 }
  | .resetTransaction promotion =>
    { world with
      inner := world.inner.resetTransaction promotion
      resetting := world.resetting - 1
      storedBy := none }

/-- A node that has just opened its store: nothing is under way, and the snapshot
it finds is not ahead of what it has applied. -/
structure Opened (world : World) : Prop where
  builders : world.builders = []
  installing : world.installing = none
  resetting : world.resetting = 0
  storedBy : world.storedBy = none
  snapshot : ∀ stored ∈ world.inner.snapshot,
    asOf stored.metadata.lastLogId ≤ asOf world.inner.applied.lastApplied

/-! ## What every interleaving keeps -/

/-- How the copies of the log's position compare. -/
structure Ordered (world : World) : Prop where
  /-- no builder is from the future -/
  made : ∀ builder ∈ world.builders, builder.generation ≤ world.inner.generation
  /-- a copy of this generation is not ahead of the memory -/
  captured : ∀ builder ∈ world.builders, builder.generation = world.inner.generation →
    asOf builder.captured.lastApplied ≤ asOf world.inner.applied.lastApplied
  /-- outside a reset, neither is what is stored -/
  stored : world.resetting = 0 → ∀ stored ∈ world.inner.snapshot,
    asOf stored.metadata.lastLogId ≤ asOf world.inner.applied.lastApplied
  /-- the memory waits for the install under way, and no reset is -/
  installing : ∀ snapshot ∈ world.installing,
    world.inner.applied.lastApplied = snapshot.metadata.lastLogId ∧ world.resetting = 0

theorem Opened.ordered {world : World} (h : world.Opened) : world.Ordered where
  made := by simp [h.builders]
  captured := by simp [h.builders]
  stored := fun _ => h.snapshot
  installing := by simp [h.installing]

end World

/-! ## Applying moves the memory on -/

/-- What an apply leaves in memory, whatever the database does. -/
theorem apply_applied (sig : Signing) (inner : Inner) (entries : List Entry) (fate : Fate) :
    (inner.apply sig entries fate).2.applied = (inner.applied.applyEntries sig entries).2 := by
  cases fate <;> rfl

/-- Entries at increasing ids leave the last applied id no earlier. -/
theorem lastApplied_applyEntries (sig : Signing) {entries : List Entry} :
    ∀ {applied : Applied},
      (∀ entry ∈ entries, asOf applied.lastApplied < asOf (some entry.logId)) →
      entries.Pairwise (fun a b => a.logId < b.logId) →
      asOf applied.lastApplied ≤ asOf (applied.applyEntries sig entries).2.lastApplied := by
  induction entries with
  | nil => intro applied _ _; exact le_rfl
  | cons entry rest ih =>
    intro applied habove hsorted
    obtain ⟨hfirst, hrest⟩ := List.pairwise_cons.mp hsorted
    have hnext : (applied.applyEntry sig entry).2.lastApplied = some entry.logId :=
      Applied.applyEntry_lastApplied applied entry
    calc asOf applied.lastApplied
        ≤ asOf (some entry.logId) := (habove entry List.mem_cons_self).le
      _ = asOf (applied.applyEntry sig entry).2.lastApplied := by rw [hnext]
      _ ≤ asOf ((applied.applyEntry sig entry).2.applyEntries sig rest).2.lastApplied := by
        refine ih ?_ hrest
        intro later hlater
        rw [hnext]
        exact WithBot.coe_lt_coe.mpr (hfirst later hlater)

/-- The parts of a node an apply leaves alone. -/
theorem apply_frame (sig : Signing) (inner : Inner) (entries : List Entry) (fate : Fate) :
    (inner.apply sig entries fate).2.snapshot = inner.snapshot ∧
      (inner.apply sig entries fate).2.generation = inner.generation := by
  cases fate <;> exact ⟨rfl, rfl⟩

namespace World

variable {sig : Signing} {world : World}

/-! ## One happening -/

theorem Ordered.apply (h : world.Ordered) {entries : List Entry} {fate : Fate}
    (hlegal : world.Legal (.apply entries fate)) :
    (world.step sig (.apply entries fate)).Ordered := by
  obtain ⟨hfree, habove, hsorted⟩ := hlegal
  obtain ⟨hsnapshot, hgeneration⟩ := apply_frame sig world.inner entries fate
  have hmoved : asOf world.inner.applied.lastApplied ≤
      asOf (world.inner.apply sig entries fate).2.applied.lastApplied := by
    rw [apply_applied]
    exact lastApplied_applyEntries sig habove hsorted
  refine ⟨?_, ?_, ?_, ?_⟩
  · intro builder hbuilder
    rw [step, hgeneration]
    exact h.made builder hbuilder
  · intro builder hbuilder hcurrent
    rw [step, hgeneration] at hcurrent
    exact (h.captured builder hbuilder hcurrent).trans hmoved
  · intro hquiet stored hstored
    rw [step, hsnapshot] at hstored
    exact (h.stored hquiet stored hstored).trans hmoved
  · intro snapshot hinstalling
    rw [step, hfree] at hinstalling
    cases hinstalling

theorem Ordered.capture (h : world.Ordered) : (world.step sig .capture).Ordered := by
  refine ⟨?_, ?_, h.stored, h.installing⟩
  · intro builder hbuilder
    rcases List.mem_append.mp hbuilder with hold | hnew
    · exact h.made builder hold
    · rw [List.mem_singleton.mp hnew]
      exact le_rfl
  · intro builder hbuilder hcurrent
    rcases List.mem_append.mp hbuilder with hold | hnew
    · exact h.captured builder hold hcurrent
    · rw [List.mem_singleton.mp hnew]
      exact le_rfl

/-- What the transaction of a builder does to the world. -/
theorem build_cases (world : World) (k : ℕ) :
    world.build k = world ∨
      ∃ builder ∈ world.builders, world.builders[k]? = some builder ∧
        world.inner.heldBack builder = false ∧
        world.build k =
          { world with
            inner := { world.inner with snapshot := some (.of builder.captured builder.seq) }
            storedBy := some k } := by
  rw [build]
  rcases hk : world.builders[k]? with _ | builder
  · exact Or.inl rfl
  · simp only [Inner.buildTransaction]
    cases hheld : world.inner.heldBack builder
    · exact Or.inr ⟨builder, List.mem_of_getElem? hk, rfl, hheld, rfl⟩
    · exact Or.inl rfl

theorem Ordered.build (h : world.Ordered) (k : ℕ) : (world.step sig (.build k)).Ordered := by
  rw [step]
  rcases build_cases world k with hsame | ⟨builder, hbuilder, -, hheld, heq⟩
  · rw [hsame]
    exact h
  · rw [heq]
    refine ⟨h.made, h.captured, ?_, h.installing⟩
    rintro - stored hstored
    obtain rfl := Option.mem_some_iff.mp hstored
    exact h.captured builder hbuilder (Inner.heldBack_eq_false.mp hheld).1.symm

theorem Ordered.installMemory (h : world.Ordered) {snapshot : StoredSnapshot}
    (hlegal : world.Legal (.installMemory snapshot)) :
    (world.step sig (.installMemory snapshot)).Ordered := by
  obtain ⟨hfree, hquiet, hahead⟩ := hlegal
  have hmoved : asOf world.inner.applied.lastApplied ≤ asOf snapshot.data.lastApplied := by
    rw [← snapshot.described]
    exact hahead
  refine ⟨h.made, ?_, ?_, ?_⟩
  · intro builder hbuilder hcurrent
    exact (h.captured builder hbuilder hcurrent).trans hmoved
  · intro _ stored hstored
    exact (h.stored hquiet stored hstored).trans hmoved
  · intro installing hinstalling
    obtain rfl := Option.mem_some_iff.mp hinstalling
    exact ⟨snapshot.described.symm, hquiet⟩

theorem Ordered.installTransaction (h : world.Ordered) :
    (world.step sig .installTransaction).Ordered := by
  rw [step, World.installTransaction]
  rcases hinstalling : world.installing with _ | snapshot
  · exact h
  · refine ⟨h.made, h.captured, ?_, by simp⟩
    rintro - stored hstored
    obtain rfl := Option.mem_some_iff.mp hstored
    rw [← (h.installing _ hinstalling).1]
    exact le_rfl

theorem Ordered.resetMemory (h : world.Ordered) (hlegal : world.Legal .resetMemory) :
    (world.step sig .resetMemory).Ordered := by
  refine ⟨?_, ?_, ?_, ?_⟩
  · intro builder hbuilder
    exact (h.made builder hbuilder).trans (Nat.le_succ _)
  · -- the generation has moved, and no copy is of the new one
    intro builder hbuilder hcurrent
    have hmade := h.made builder hbuilder
    simp only [step, Inner.resetMemory] at hcurrent
    omega
  · intro hquiet
    exact absurd hquiet (Nat.succ_ne_zero _)
  · intro snapshot hinstalling
    have hfree : world.installing = none := hlegal
    rw [step, hfree] at hinstalling
    cases hinstalling

theorem Ordered.resetTransaction (h : world.Ordered) {promotion : Option Promotion}
    (hlegal : world.Legal (.resetTransaction promotion)) :
    (world.step sig (.resetTransaction promotion)).Ordered := by
  refine ⟨h.made, h.captured, ?_, ?_⟩
  · rintro - stored hstored
    cases hstored
  · intro snapshot hinstalling
    have hquiet := (h.installing snapshot hinstalling).2
    have hpending : 0 < world.resetting := hlegal
    omega

/-- **Every happening keeps the order.** -/
theorem Ordered.step (h : world.Ordered) (happening : Happening) (hlegal : world.Legal happening) :
    (world.step sig happening).Ordered := by
  cases happening with
  | apply entries fate => exact h.apply hlegal
  | capture => exact h.capture
  | build k => exact h.build k
  | installMemory snapshot => exact h.installMemory hlegal
  | installTransaction => exact h.installTransaction
  | installFailed => exact ⟨h.made, h.captured, h.stored, by simp [World.step]⟩
  | resetMemory => exact h.resetMemory hlegal
  | resetTransaction promotion => exact h.resetTransaction hlegal

/-! ## The stored snapshot -/

/-- What `later` has stored is not behind what `world` had. -/
def NotBehind (world later : World) : Prop :=
  ∀ stored ∈ world.inner.snapshot, ∃ newer ∈ later.inner.snapshot,
    asOf stored.metadata.lastLogId ≤ asOf newer.metadata.lastLogId

theorem NotBehind.of_eq {later : World} (h : later.inner.snapshot = world.inner.snapshot) :
    world.NotBehind later := by
  intro stored hstored
  exact ⟨stored, h ▸ hstored, le_rfl⟩

theorem NotBehind.trans {a b c : World} (hab : a.NotBehind b) (hbc : b.NotBehind c) :
    a.NotBehind c := by
  intro stored hstored
  obtain ⟨newer, hnewer, hle⟩ := hab stored hstored
  obtain ⟨newest, hnewest, hle'⟩ := hbc newer hnewer
  exact ⟨newest, hnewest, hle.trans hle'⟩

/-- Only the transaction of a reset takes a snapshot back. -/
theorem Ordered.notBehind (h : world.Ordered) (happening : Happening)
    (hkeeps : ∀ promotion, happening ≠ .resetTransaction promotion) :
    world.NotBehind (world.step sig happening) := by
  cases happening with
  | apply entries fate => exact .of_eq (apply_frame sig world.inner entries fate).1
  | capture => exact .of_eq rfl
  | installMemory snapshot => exact .of_eq rfl
  | installFailed => exact .of_eq rfl
  | resetMemory => exact .of_eq rfl
  | resetTransaction promotion => exact absurd rfl (hkeeps promotion)
  | build k =>
    rw [World.step]
    rcases build_cases world k with hsame | ⟨builder, -, -, hheld, heq⟩
    · rw [hsame]
      exact .of_eq rfl
    · rw [heq]
      intro stored hstored
      exact ⟨_, rfl, (Inner.heldBack_eq_false.mp hheld).2 stored hstored⟩
  | installTransaction =>
    rw [World.step, World.installTransaction]
    rcases hinstalling : world.installing with _ | snapshot
    · exact .of_eq rfl
    · -- what is installed is what the memory waits for, and the memory is ahead
      obtain ⟨hmemory, hquiet⟩ := h.installing _ hinstalling
      intro stored hstored
      refine ⟨snapshot, rfl, ?_⟩
      rw [← hmemory]
      exact h.stored hquiet stored hstored

/-! ## Builders from before a reset -/

/-- The first `n` builders took their copies before the generation last moved. -/
structure Outdated (n : ℕ) (world : World) : Prop where
  made : n ≤ world.builders.length
  generation : ∀ k < n, ∀ builder ∈ world.builders[k]?,
    builder.generation < world.inner.generation

theorem Outdated.of_builders {n : ℕ} {later : World} (h : Outdated n world)
    (hbuilders : later.builders = world.builders)
    (hgeneration : world.inner.generation ≤ later.inner.generation) : Outdated n later where
  made := hbuilders ▸ h.made
  generation := by
    intro k hk builder hbuilder
    rw [hbuilders] at hbuilder
    exact (h.generation k hk builder hbuilder).trans_le hgeneration

/-- An outdated builder stores nothing. -/
theorem Outdated.build_eq {n k : ℕ} (h : Outdated n world) (hk : k < n) : world.build k = world := by
  rcases build_cases world k with hsame | ⟨builder, -, hget, hheld, -⟩
  · exact hsame
  · have hcurrent := (Inner.heldBack_eq_false.mp hheld).1
    have hold := h.generation k hk builder hget
    omega

theorem Outdated.step {n : ℕ} (h : Outdated n world) (happening : Happening) :
    Outdated n (world.step sig happening) := by
  cases happening with
  | apply entries fate => exact h.of_builders rfl (apply_frame sig world.inner entries fate).2.ge
  | capture =>
    refine ⟨h.made.trans (by simp [World.step]), ?_⟩
    intro k hk builder hbuilder
    simp only [World.step, List.getElem?_append_left (hk.trans_le h.made)] at hbuilder
    exact h.generation k hk builder hbuilder
  | build k =>
    rw [World.step]
    rcases build_cases world k with hsame | ⟨builder, -, -, -, heq⟩
    · rw [hsame]
      exact h
    · rw [heq]
      exact h.of_builders rfl le_rfl
  | installTransaction =>
    rw [World.step, World.installTransaction]
    rcases world.installing with _ | snapshot
    · exact h
    · exact h.of_builders rfl le_rfl
  | resetMemory => exact h.of_builders rfl (Nat.le_succ _)
  | installMemory snapshot => exact h.of_builders rfl le_rfl
  | installFailed => exact h.of_builders rfl le_rfl
  | resetTransaction promotion => exact h.of_builders rfl le_rfl

/-- What is stored was not made by one of the first `n` builders. -/
def NotFrom (n : ℕ) (world : World) : Prop := ∀ k ∈ world.storedBy, n ≤ k

theorem NotFrom.step {n : ℕ} (hnot : NotFrom n world) (hold : Outdated n world)
    (happening : Happening) : NotFrom n (world.step sig happening) := by
  cases happening with
  | build k =>
    rw [World.step]
    rcases lt_or_ge k n with hk | hk
    · rw [hold.build_eq hk]
      exact hnot
    · rcases build_cases world k with hsame | ⟨builder, -, -, -, heq⟩
      · rw [hsame]
        exact hnot
      · rw [heq]
        intro j hj
        obtain rfl := Option.mem_some_iff.mp hj
        exact hk
  | installTransaction =>
    rw [World.step, World.installTransaction]
    rcases world.installing with _ | snapshot
    · exact hnot
    · intro k hk
      cases hk
  | resetTransaction promotion =>
    intro k hk
    cases hk
  | _ => exact hnot

end World

/-! ## Whole interleavings -/

variable {sig : Signing}

/-- Between two resets the stored snapshot does not go back. -/
theorem notBehind_exec {world : World} (h : world.Ordered) {events : List Happening}
    (hlegal : Along (World.step sig) World.Legal world events)
    (hkeeps : ∀ promotion, .resetTransaction promotion ∉ events) :
    world.NotBehind (exec (World.step sig) world events) := by
  have hrun := hlegal.and_forall (P := fun e => ∀ promotion, e ≠ .resetTransaction promotion)
    (fun e he promotion heq => hkeeps promotion (heq ▸ he))
  refine Along.related (I := World.Ordered) (R := World.NotBehind) ?_ (fun _ => .of_eq rfl)
    (fun _ _ _ hab hbc => hab.trans hbc) h hrun
  rintro world e hordered ⟨hok, hno⟩
  exact ⟨hordered.step e hok, hordered.notBehind e hno⟩

/-- From a reset's first half on, the builders made before it are outdated. -/
theorem outdated_exec {world : World} (h : world.Ordered) (events : List Happening) :
    World.Outdated world.builders.length
      (exec (World.step sig) world (.resetMemory :: events)) := by
  rw [exec_cons]
  refine exec_invariant (I := World.Outdated world.builders.length)
    (fun world e hold => hold.step e) events ⟨le_rfl, ?_⟩
  intro k _ builder hbuilder
  exact Nat.lt_succ_of_le (h.made builder (List.mem_of_getElem? hbuilder))

/-- After a reset's transaction, what is stored is from none of the builders made
before the reset. -/
theorem notFrom_exec {n : ℕ} {world : World} (hold : World.Outdated n world)
    (promotion : Option Promotion) (events : List Happening) :
    World.NotFrom n (exec (World.step sig) world (.resetTransaction promotion :: events)) := by
  have hboth : World.NotFrom n (exec (World.step sig) world (.resetTransaction promotion :: events)) ∧
      World.Outdated n (exec (World.step sig) world (.resetTransaction promotion :: events)) := by
    rw [exec_cons]
    refine exec_invariant (I := fun world => World.NotFrom n world ∧ World.Outdated n world)
      (fun world e h => ⟨h.1.step h.2 e, h.2.step e⟩) events ⟨?_, hold.step _⟩
    intro k hk
    cases hk
  exact hboth.1

/-- **Snapshots never go back.** Take any interleaving of builders, applies,
installs and resets, and any two moments of it.

* If no reset's transaction commits between them, what is stored at the second
  is not behind what was stored at the first.
* If a reset happens between them, from its first half to its transaction, then
  what is stored at the second was made by no builder from before the reset, and
  none of those builders can store anything any more. -/
theorem snapshots_never_go_back (sig : Signing) (start : World) (hopened : start.Opened)
    (before after : List Happening)
    (hlegal : Along (World.step sig) World.Legal start (before ++ after)) :
    let first := exec (World.step sig) start before
    let second := exec (World.step sig) start (before ++ after)
    ((∀ promotion, .resetTransaction promotion ∉ after) →
      ∀ stored ∈ first.inner.snapshot, ∃ newer ∈ second.inner.snapshot,
        asOf stored.metadata.lastLogId ≤ asOf newer.metadata.lastLogId) ∧
    ∀ mid promotion rest, after = .resetMemory :: mid ++ .resetTransaction promotion :: rest →
      ∀ k < first.builders.length,
        second.storedBy ≠ some k ∧ second.step sig (.build k) = second := by
  intro first second
  obtain ⟨hbefore, hafter⟩ := along_append.mp hlegal
  have hordered : first.Ordered :=
    Along.invariant (fun world e h hok => h.step e hok) hopened.ordered hbefore
  have hsecond : second = exec (World.step sig) first after := exec_append ..
  refine ⟨?_, ?_⟩
  · intro hkeeps
    rw [hsecond]
    exact notBehind_exec hordered hafter hkeeps
  · rintro mid promotion rest rfl k hk
    rw [hsecond]
    refine ⟨?_, ?_⟩
    · rw [exec_append]
      intro hstored
      exact absurd (notFrom_exec (outdated_exec hordered mid) promotion rest k hstored) (by omega)
    · exact (outdated_exec hordered _).build_eq hk

/-! ## A builder that comes late -/

/-- A node with an empty database. -/
def opened : World := ⟨.fresh, [], none, 0, none⟩

theorem opened_opened : opened.Opened := ⟨rfl, rfl, rfl, rfl, fun _ h => nomatch h⟩

/-- The node applies a blank entry at `index`. -/
def blankAt (index : ℕ) : Happening := .apply [⟨⟨1, alice, index⟩, .blank⟩] .stored

/-- A snapshot the leader sends, of a state that has applied through `index`. -/
def sentAt (index : ℕ) : StoredSnapshot :=
  .of { Applied.empty with lastApplied := some ⟨1, alice, index⟩ } 0

/-- A first snapshot is stored, and a second builder has its copy. -/
def twoBuilders : List Happening := [blankAt 1, .capture, .build 0, blankAt 2, .capture]

/-- The second builder comes late: once after a newer snapshot was installed, and
once after a reset. -/
theorem snapshots_never_go_back_late :
    (∃ newer ∈ (exec (World.step .accepting) opened
        (twoBuilders ++ [.installMemory (sentAt 5), .installTransaction, .build 1])).inner.snapshot,
      asOf (some ⟨1, alice, 1⟩) ≤ asOf newer.metadata.lastLogId) ∧
    (exec (World.step .accepting) opened
      (twoBuilders ++ [.resetMemory, .build 1, .resetTransaction none, .build 1])).storedBy ≠ some 1 := by
  refine ⟨?_, ?_⟩
  · refine (snapshots_never_go_back .accepting opened opened_opened twoBuilders
      [.installMemory (sentAt 5), .installTransaction, .build 1] (by decide +kernel)).1 ?_
      (.of { Applied.empty with lastApplied := some ⟨1, alice, 1⟩ } 0) ?_
    · intro promotion
      simp
    · rfl
  · exact ((snapshots_never_go_back .accepting opened opened_opened twoBuilders
      [.resetMemory, .build 1, .resetTransaction none, .build 1] (by decide +kernel)).2
      [.build 1] none [.build 1] rfl 1 (by decide +kernel)).1

end Snapshots

end Distlib
