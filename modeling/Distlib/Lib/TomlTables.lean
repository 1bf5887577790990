import Distlib.Lib.Toml

/-!
# What a statement leaves as it was

A key that has been given its value keeps it, whatever statements follow: a text
that gives it another is refused as a whole. `Keeps` says it of the table of a
text and of the table of what the text begins with, for every value that nothing
may enter (`Value.settled`); a table that is entered keeps the same of its own
keys.

The other half is the plain case, a header at a time with its keys below it
(`assemble_sections`).
-/

namespace Toml

/-- Nothing enters such a value: it is no table of a header's, nor an array of them. -/
def Value.settled : Value → Bool
  | .array grows _ => !grows
  | .table made _ => made == .inline
  | _ => true

/-- What a table holds; nothing, for anything else. -/
def Value.inside : Value → Entries
  | .table _ entries => entries
  | _ => []

/-- What is at the end of a path of tables. -/
def find : List Text → Entries → Option Value
  | [], _ => none
  | k :: path, entries =>
    (entries.lookup k).bind fun v => if path = [] then some v else find path v.inside

/-- What was settled is as it was. -/
def Keeps (before after : Entries) : Prop :=
  ∀ path v, v.settled = true → find path before = some v → find path after = some v

/-- What a value may become, where the table it is in keeps what is settled. -/
def Carries (before after : Value) : Prop :=
  (before.settled = true → after = before) ∧ Keeps before.inside after.inside

variable {before after last entries root : Entries} {k : Text} {v w : Value}

theorem Keeps.refl (entries : Entries) : Keeps entries entries := fun _ _ _ h => h

/-- What is kept step by step is kept. -/
theorem Keeps.trans (h : Keeps before after) (h' : Keeps after last) : Keeps before last :=
  fun path v hv hfind => h' path v hv (h path v hv hfind)

theorem Carries.refl (v : Value) : Carries v v := ⟨fun _ => rfl, Keeps.refl _⟩

/-- It is enough to look at the keys of the table itself. -/
theorem keeps_of_lookup
    (h : ∀ k v, before.lookup k = some v → ∃ w, after.lookup k = some w ∧ Carries v w) :
    Keeps before after := by
  rintro (_ | ⟨k, path⟩) v hv hfind
  · cases hfind
  · rw [find, Option.bind_eq_some_iff] at hfind ⊢
    obtain ⟨u, hu, hfind⟩ := hfind
    obtain ⟨w, hw, hsame, hinside⟩ := h k u hu
    refine ⟨w, hw, ?_⟩
    split_ifs at hfind ⊢ with hpath
    · obtain rfl := Option.some.inj hfind
      rw [hsame hv]
    · exact hinside path v hv hfind

/-- The first of two tables with a key has it. -/
theorem lookup_append (before after : Entries) (k : Text) :
    (before ++ after).lookup k = (before.lookup k).or (after.lookup k) := List.lookup_append

/-- A new entry at the end hides none. -/
theorem keeps_append (more : Entries) : Keeps before (before ++ more) :=
  keeps_of_lookup fun k v h => ⟨v, by rw [lookup_append, h, Option.some_or], Carries.refl v⟩

theorem lookup_cons (name : Text) (u : Value) (entries : Entries) (j : Text) :
    List.lookup j ((name, u) :: entries) = if j = name then some u else entries.lookup j := by
  rw [List.lookup_cons]
  split_ifs with hj
  · rw [beq_iff_eq.mpr hj]
  · rw [beq_eq_false_iff_ne.mpr hj]

/-- A key that is there gets its new value, and the others keep theirs. -/
theorem lookup_put {j : Text} (h : entries.lookup k = some v) :
    (put k w entries).lookup j = if j = k then some w else entries.lookup j := by
  induction entries with
  | nil => cases h
  | cons entry entries ih =>
    obtain ⟨name, u⟩ := entry
    rw [put, lookup_cons]
    by_cases hname : name = k
    · subst hname
      rw [if_pos rfl, lookup_cons]
      split_ifs <;> rfl
    · rw [lookup_cons, if_neg (Ne.symm hname)] at h
      rw [if_neg hname, lookup_cons, ih h]
      by_cases hj : j = name
      · rw [if_pos hj, if_pos hj, if_neg (hj ▸ hname)]
      · rw [if_neg hj, if_neg hj]

/-- A value may be replaced by one that carries it. -/
theorem keeps_put (h : entries.lookup k = some v) (hcarries : Carries v w) :
    Keeps entries (put k w entries) :=
  keeps_of_lookup fun j u hu => by
    rw [lookup_put h]
    by_cases hj : j = k
    · subst hj
      obtain rfl := Option.some.inj (h.symm.trans hu)
      exact ⟨w, if_pos rfl, hcarries⟩
    · exact ⟨u, by rw [if_neg hj, hu], Carries.refl u⟩

/-! ## Statements -/

/-- Nothing is put into an inline table from outside. -/
theorem not_admits_inline (way : Made) : way.admits .inline = false := by
  cases way <;> rfl

/-- What keeps the table at the end of a path keeps the one it starts from. -/
theorem within_keeps {way : Made} {act : Entries → Option Entries}
    (hact : ∀ entries after, act entries = some after → Keeps entries after) :
    ∀ (path : List Text) (entries after : Entries),
      within way act path entries = some after → Keeps entries after
  | [], entries, after, h => hact entries after h
  | k :: path, entries, after, h => by
    rw [within] at h
    split at h
    case h_1 hlookup =>
      obtain ⟨inner, -, rfl⟩ := Option.map_eq_some_iff.mp h
      exact keeps_append _
    case h_2 made inner hlookup =>
      split_ifs at h with hadmits
      obtain ⟨inner', hinner, rfl⟩ := Option.map_eq_some_iff.mp h
      refine keeps_put hlookup ⟨fun hsettled => ?_, within_keeps hact path inner inner' hinner⟩
      obtain rfl : made = .inline := by simpa [Value.settled] using hsettled
      rw [not_admits_inline] at hadmits
      cases hadmits
    case h_3 items hlookup =>
      split at h
      · obtain ⟨inner, -, rfl⟩ := Option.map_eq_some_iff.mp h
        exact keeps_put hlookup ⟨fun hsettled => absurd hsettled Bool.false_ne_true, Keeps.refl _⟩
      · cases h
    case h_4 => cases h

/-- A header opens a table that is there or makes one. -/
theorem openTable_keeps (h : openTable k entries = some after) : Keeps entries after := by
  rw [openTable] at h
  split at h
  · obtain rfl := Option.some.inj h
    exact keeps_append _
  case h_2 inner hlookup =>
    obtain rfl := Option.some.inj h
    exact keeps_put hlookup ⟨fun hsettled => absurd hsettled Bool.false_ne_true, Keeps.refl _⟩
  · cases h

/-- One more table of an array of tables leaves those before it. -/
theorem addElement_keeps (h : addElement k entries = some after) : Keeps entries after := by
  rw [addElement] at h
  split at h
  · obtain rfl := Option.some.inj h
    exact keeps_append _
  case h_2 items hlookup =>
    obtain rfl := Option.some.inj h
    exact keeps_put hlookup ⟨fun hsettled => absurd hsettled Bool.false_ne_true, Keeps.refl _⟩
  · cases h

/-- A key that is new is defined at the end. -/
theorem define_eq (h : entries.lookup k = none) : define k v entries = some (entries ++ [(k, v)]) := by
  rw [define, h]

/-- No key is defined twice, so no definition takes one away. -/
theorem define_keeps (h : define k v entries = some after) : Keeps entries after := by
  rw [define] at h
  split at h
  · obtain rfl := Option.some.inj h
    exact keeps_append _
  · cases h

/-- A dotted key defines its last part in the tables of the others. -/
theorem assignIn_keeps {path : List Text} (h : assignIn path v entries = some after) :
    Keeps entries after := by
  obtain ⟨k, -, h⟩ := Option.bind_eq_some_iff.mp h
  exact within_keeps (fun _ _ => define_keeps) _ _ _ h

/-- The pairs of an inline table are defined one after the other. -/
theorem inlineTable_keeps {pairs : List (List Text × Value)}
    (h : inlineTable pairs entries = some after) : Keeps entries after := by
  induction pairs generalizing entries with
  | nil =>
    obtain rfl := Option.some.inj h
    exact Keeps.refl _
  | cons pair pairs ih =>
    obtain ⟨next, hassign, h⟩ := Option.bind_eq_some_iff.mp h
    exact (assignIn_keeps hassign).trans (ih h)

/-- **No statement takes anything back**: what a table told of before, it tells of after. -/
theorem apply_keeps {statement : Statement} {current : List Text} {state : List Text × Entries}
    (h : statement.apply current root = some state) : Keeps root state.2 := by
  cases statement with
  | header path =>
    obtain ⟨k, -, h⟩ := Option.bind_eq_some_iff.mp h
    obtain ⟨after, hwithin, rfl⟩ := Option.map_eq_some_iff.mp h
    exact within_keeps (fun _ _ => openTable_keeps) _ _ _ hwithin
  | element path =>
    obtain ⟨k, -, h⟩ := Option.bind_eq_some_iff.mp h
    obtain ⟨after, hwithin, rfl⟩ := Option.map_eq_some_iff.mp h
    exact within_keeps (fun _ _ => addElement_keeps) _ _ _ hwithin
  | assign path v =>
    obtain ⟨after, hwithin, rfl⟩ := Option.map_eq_some_iff.mp h
    exact within_keeps (fun _ _ => assignIn_keeps) _ _ _ hwithin

/-- **What is settled stays as it is**, whatever statements follow. -/
theorem assemble_keeps {all : List Statement} {current : List Text} {state : List Text × Entries}
    (h : assemble current root all = some state) : Keeps root state.2 := by
  induction all generalizing current root with
  | nil =>
    obtain rfl := Option.some.inj h
    exact Keeps.refl _
  | cons statement all ih =>
    obtain ⟨next, happly, h⟩ := Option.bind_eq_some_iff.mp h
    exact (apply_keeps happly).trans (ih h)

/-- In an inline table too. -/
theorem lookup_of_mem_pairs {pairs : List (List Text × Value)} (hv : v.settled = true)
    (h : inlineTable pairs entries = some after) (hmem : ([k], v) ∈ pairs) :
    after.lookup k = some v := by
  induction pairs generalizing entries with
  | nil => cases hmem
  | cons pair pairs ih =>
    obtain ⟨next, hassign, hrest⟩ := Option.bind_eq_some_iff.mp h
    rcases List.mem_cons.mp hmem with rfl | hmem
    · have hdefine : define k v entries = some next := hassign
      have hfound : find [k] next = some v := by
        rw [define] at hdefine
        split at hdefine
        case h_1 hlookup =>
          obtain rfl := Option.some.inj hdefine
          simp [find, lookup_append, hlookup]
        · cases hdefine
      simpa [find] using inlineTable_keeps hrest [k] v hv hfound
    · exact ih hrest hmem

/-! ## A header at a time -/

/-- Names and what stands under each. -/
abbrev Sections := List (Text × Entries)

/-- What is said where every name is a header and every key under it is assigned. -/
def Sections.statements (sections : Sections) : List Statement :=
  sections.flatMap fun named =>
    .header [named.1] :: named.2.map fun entry => .assign [entry.1] entry.2

/-- The table that makes. -/
def Sections.table (sections : Sections) : Entries :=
  sections.map fun named => (named.1, .table .header named.2)

/-- A key that no entry has is not found. -/
theorem lookup_eq_none_of_notMem (h : k ∉ entries.map Prod.fst) : entries.lookup k = none := by
  rw [List.lookup_eq_none_iff]
  rintro entry hmem
  rw [bne_iff_ne]
  rintro rfl
  exact h (List.mem_map_of_mem hmem)

/-- The last entry of a table is replaced where it stands. -/
theorem put_append (h : entries.lookup k = none) :
    put k w (entries ++ [(k, v)]) = entries ++ [(k, w)] := by
  induction entries with
  | nil => simp [put]
  | cons entry entries ih =>
    obtain ⟨name, u⟩ := entry
    rw [lookup_cons] at h
    split_ifs at h with hname
    rw [List.cons_append, put, if_neg (Ne.symm hname), ih h, List.cons_append]

/-- The keys below a header, one after the other. -/
theorem assemble_assigns {pairs more : Entries} {rest : List Statement}
    (hk : root.lookup k = none) (hnodup : ((pairs ++ more).map Prod.fst).Nodup) :
    assemble [k] (root ++ [(k, .table .header pairs)])
        (more.map (fun entry => .assign [entry.1] entry.2) ++ rest) =
      assemble [k] (root ++ [(k, .table .header (pairs ++ more))]) rest := by
  induction more generalizing pairs with
  | nil => rw [List.map_nil, List.nil_append, List.append_nil]
  | cons entry more ih =>
    obtain ⟨name, v⟩ := entry
    have hname : pairs.lookup name = none := by
      refine lookup_eq_none_of_notMem fun hmem => ?_
      rw [List.map_append, List.map_cons] at hnodup
      exact (List.disjoint_of_nodup_append hnodup) hmem (List.mem_cons_self ..)
    have hlookup : (root ++ [(k, Value.table .header pairs)]).lookup k =
        some (.table .header pairs) := by
      simp [lookup_append, hk]
    have happly : (Statement.assign [name] v).apply [k] (root ++ [(k, .table .header pairs)]) =
        some ([k], root ++ [(k, .table .header (pairs ++ [(name, v)]))]) := by
      rw [Statement.apply, within, hlookup]
      have hinside : within .implied (assignIn [name] v) [] pairs = some (pairs ++ [(name, v)]) :=
        define_eq hname
      have hadmits : Made.admits .implied .header = true := rfl
      dsimp only
      rw [hinside, hadmits, if_pos rfl, Option.map_some, put_append hk]
      rfl
    rw [List.map_cons, List.cons_append, assemble, happly, Option.bind_some,
      ih (by rwa [List.append_assoc, List.singleton_append]), List.append_assoc,
      List.singleton_append]

/-- **A section is assembled as it is written**: a header that is new, and then its
settings, all of other keys. -/
theorem assemble_section {pairs : Entries} {current : List Text} {rest : List Statement}
    (hk : root.lookup k = none) (hnodup : (pairs.map Prod.fst).Nodup) :
    assemble current root
        (.header [k] :: (pairs.map (fun entry => .assign [entry.1] entry.2) ++ rest)) =
      assemble [k] (root ++ [(k, .table .header pairs)]) rest := by
  have happly : (Statement.header [k]).apply current root =
      some ([k], root ++ [(k, .table .header [])]) := by
    have hopen : within .implied (openTable k) [] root =
        some (root ++ [(k, .table .header [])]) := by
      rw [within, openTable, hk]
    rw [Statement.apply]
    exact congrArg (Option.map fun root => ([k], root)) hopen
  rw [assemble, happly, Option.bind_some]
  exact assemble_assigns hk hnodup

/-- **Every header and its keys**, in turn. -/
theorem assemble_sections {sections : Sections} {rest : List Statement}
    (hnames : (root.map Prod.fst ++ sections.map Prod.fst).Nodup)
    (hkeys : ∀ named ∈ sections, (named.2.map Prod.fst).Nodup) (current : List Text) :
    ∃ current', assemble current root (sections.statements ++ rest) =
      assemble current' (root ++ sections.table) rest := by
  induction sections generalizing root current with
  | nil => exact ⟨current, by simp [Sections.statements, Sections.table]⟩
  | cons named sections ih =>
    obtain ⟨name, pairs⟩ := named
    obtain ⟨hpairs, hkeys⟩ := List.forall_mem_cons.mp hkeys
    have hname : root.lookup name = none := lookup_eq_none_of_notMem fun hmem =>
      (List.disjoint_of_nodup_append hnames) hmem (List.mem_cons_self ..)
    obtain ⟨current', hrest⟩ : ∃ current', assemble [name] (root ++ [(name, .table .header pairs)])
          (Sections.statements sections ++ rest) =
        assemble current' (root ++ [(name, .table .header pairs)] ++ Sections.table sections) rest :=
      ih (by simpa using hnames) hkeys [name]
    refine ⟨current', ?_⟩
    have hsplit : Sections.statements ((name, pairs) :: sections) ++ rest =
        .header [name] :: (pairs.map (fun entry => .assign [entry.1] entry.2) ++
          (Sections.statements sections ++ rest)) := by
      simp [Sections.statements]
    rw [hsplit, assemble_section hname hpairs, hrest, List.append_assoc]
    rfl

end Toml
