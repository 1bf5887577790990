import Distlib.Core.Starter
import Distlib.Lib.Hex

/-!
# Loading what was written

A node writes its configuration down when it starts for the first time and when it joins a
group, line by line and with no serialiser, and from then on it starts from what it reads
there. So the question of a starter file is whether `load` gives back the configuration it
came from, and `reloads_iff` says of every one when it does.

One way round, the file is read as the table of the configuration (`read_starter`), its
sections take the place of their defaults one by one (`merge_defaults`), and what is taken
out of them is the configuration with every address as its text shows it
(`extract_tables`). What an address's text leaves out is the flow information of IPv6, so
that a configuration is given back whole if it has none.

The other way round nothing may be assumed of the text: a string with a quote in it may
close itself, go on with anything and still be a file that loads. What is assumed is what
came out. If it is the configuration that went in, then the table tells of every line what
the line was meant to say (`told_document`), and a reader that is told so has read the
lines one after the other as they are meant, to the last (`Toml.reads_of_read`). That is
only so if their strings are plain and their integers small.

Joining writes the directions of a ticket into the file, and a ticket comes from somebody
else. `forged_ticket` is one whose relay URL ends its string and founds a group in the
reader's name.
-/

namespace Distlib

open Toml (Text Value Entries Line Plain ReadsAs Tells Pair)

/-! ## Tables over tables -/

/-- Of two values that are not both tables the upper one is taken. -/
theorem mergeValue_of_inside {v w : Value} (h : ∀ made entries, w ≠ .table made entries) :
    mergeValue v w = w := by
  cases w with
  | table made entries => exact absurd rfl (h made entries)
  | _ => cases v <;> rfl

/-- A file that says nothing leaves the defaults. -/
theorem mergeEntries_nil (old : Entries) : mergeEntries old [] = old := by
  induction old with
  | nil => rfl
  | cons entry old ih =>
    obtain ⟨k, v⟩ := entry
    rw [mergeEntries, List.lookup_nil]
    exact congrArg _ ih

/-- What is left when one key has been taken has the others as they were. -/
theorem lookup_filter_ne {k j : Text} {entries : Entries} (h : j ≠ k) :
    (entries.filter fun entry => entry.1 != k).lookup j = entries.lookup j := by
  induction entries with
  | nil => rfl
  | cons entry entries ih =>
    obtain ⟨name, v⟩ := entry
    by_cases hname : name = k
    · subst hname
      rw [List.filter_cons_of_neg (by simp), ih, Toml.lookup_cons, if_neg h]
    · rw [List.filter_cons_of_pos (by simpa using hname), Toml.lookup_cons, Toml.lookup_cons, ih]

/-- A key of two tables, one over the other. -/
theorem lookup_mergeEntries (old new : Entries) (j : Text) :
    (mergeEntries old new).lookup j =
      match new.lookup j with
      | none => old.lookup j
      | some w => some (((old.lookup j).map fun v => mergeValue v w).getD w) := by
  induction old generalizing new with
  | nil =>
    rw [mergeEntries]
    cases new.lookup j <;> rfl
  | cons entry old ih =>
    obtain ⟨k, v⟩ := entry
    rw [mergeEntries]
    by_cases hj : j = k
    · subst hj
      cases hnew : new.lookup j <;> simp
    · cases hnew : new.lookup k with
      | none => simp only [Toml.lookup_cons, if_neg hj, ih]
      | some w => simp only [Toml.lookup_cons, if_neg hj, ih, lookup_filter_ne hj]

/-- A table that has the keys of the one below it, in their order and before any others,
takes the place of it. -/
theorem mergeEntries_eq {old front back : Entries}
    (h : List.Forall₂ (fun o w => o.1 = w.1 ∧ mergeValue o.2 w.2 = w.2) old front)
    (hnodup : ((front ++ back).map Prod.fst).Nodup) :
    mergeEntries old (front ++ back) = front ++ back := by
  induction h with
  | nil => rfl
  | @cons o w old front hfirst hrest ih =>
    obtain ⟨k, v⟩ := o
    obtain ⟨name, u⟩ := w
    obtain ⟨rfl, hvalue⟩ : k = name ∧ mergeValue v u = u := hfirst
    rw [List.cons_append, List.map_cons, List.nodup_cons] at hnodup
    have hfilter : ((k, u) :: (front ++ back)).filter (fun entry => entry.1 != k) =
        front ++ back := by
      rw [List.filter_cons_of_neg (by simp), List.filter_eq_self]
      intro entry hmem
      exact bne_iff_ne.mpr fun heq => hnodup.1 (List.mem_map.mpr ⟨entry, hmem, heq⟩)
    rw [mergeEntries, List.cons_append, Toml.lookup_cons, if_pos rfl]
    dsimp only
    rw [hfilter, hvalue, ih hnodup.2]

/-! ## Values that are taken for what was written -/

variable {crates : Crates} {config : Config}

/-- An address as its text shows it. -/
theorem extractAddr_print (addr : SocketAddr) :
    crates.extractAddr (.string (crates.printAddr addr)) = some addr.shown := by
  have htext : (String.ofList (crates.printAddr addr)).toList = crates.printAddr addr :=
    String.toList_ofList
  rw [Crates.extractAddr, extractString, Option.bind_some, htext]
  exact SocketAddr.parse_print addr

/-- A member's key is read back, whatever spelling the crate writes it in. -/
theorem extractMember_print (member : MemberId) :
    crates.extractMember (.string (crates.printKey member)) = some member := by
  rw [Crates.extractMember, extractString, Option.bind_some, String.toList_ofList]
  exact crates.parse_printKey member

theorem extractString_toList (s : String) : extractString (.string s.toList) = some s := by
  rw [extractString, String.ofList_toList]

/-- The relay modes are read by the words they are written in. -/
theorem extractRelayMode_asStr (mode : RelayMode) :
    crates.extractRelayMode (.string mode.asStr.toList) = some mode := by
  cases mode <;> rfl

theorem extractNat_integer (n : ℕ) : extractNat (.integer n) = some n := by
  rw [extractNat, if_pos (Int.natCast_nonneg n), Int.toNat_natCast]

theorem extractPos_integer (n : ℕ+) : extractPos (.integer (n : ℕ)) = some n := by
  rw [extractPos, extractNat_integer, Option.bind_some]
  exact dif_pos n.2

/-- A number that is not zero and fits its width is read as itself. -/
theorem extractNonZero_integer {bits : ℕ} (n : NonZero bits) :
    extractNonZero bits (.integer (n.1 : ℕ)) = some n := by
  rw [extractNonZero, extractPos_integer, Option.bind_some, dif_pos n.2]

theorem extractU64_integer (n : UInt64) : extractU64 (.integer n.toNat) = some n := by
  rw [extractU64, extractNat_integer, Option.bind_some, if_pos n.toNat_lt, UInt64.ofNat_toNat]

/-- A list is read if each of its items is, whatever they are. -/
theorem extractList_map {α β : Type} {extract : Value → Option β} {value : α → Value} {f : α → β}
    (h : ∀ a, extract (value a) = some (f a)) (l : List α) :
    extractList extract (.array false (l.map value)) = some (l.map f) := by
  rw [extractList, List.mapM_map]
  exact Toml.mapM_eq_map fun a _ => h a

/-- The list of the relay URLs. -/
theorem extractStrings (l : List String) :
    extractList extractString (strings (l.map String.toList)) = some l := by
  have hlist : extractList extractString (.array false (l.map (Value.string ∘ String.toList))) =
      some (l.map id) := extractList_map extractString_toList l
  rw [List.map_id] at hlist
  rw [strings, List.map_map]
  exact hlist

/-- The list of a founding member's addresses: each of them as its text shows it. -/
theorem extractAddrs (addrs : List SocketAddr) :
    extractList crates.extractAddr (strings (addrs.map crates.printAddr)) =
      some (addrs.map SocketAddr.shown) := by
  rw [strings, List.map_map]
  exact extractList_map extractAddr_print addrs

/-! ### Tables -/

/-- Keys are looked up by their characters, and no two names have the same. -/
theorem lookup_keyed (entries : List (String × Value)) (name : String) :
    (keyed entries).lookup name.toList = entries.lookup name := by
  induction entries with
  | nil => rfl
  | cons entry entries ih =>
    obtain ⟨k, v⟩ := entry
    have hcons : keyed ((k, v) :: entries) = (k.toList, v) :: keyed entries := rfl
    rw [hcons, Toml.lookup_cons, List.lookup_cons, ih]
    by_cases hname : name = k
    · rw [if_pos (congrArg String.toList hname), beq_iff_eq.mpr hname]
    · rw [if_neg fun heq => hname (String.toList_inj.mp heq), beq_eq_false_iff_ne.mpr hname]

/-- A struct is taken out of a table with some of its fields. -/
theorem fields_keyed {names : List String} {entries : List (String × Value)} {made : Toml.Made}
    (h : ∀ entry ∈ entries, entry.1 ∈ names) :
    fields crates names (.table made (keyed entries)) = some fun name => entries.lookup name := by
  have hall : (keyed entries).all (fun entry => names.contains (String.ofList entry.1)) = true := by
    rw [List.all_eq_true]
    intro entry hmem
    obtain ⟨named, hnamed, rfl⟩ := List.mem_map.mp hmem
    rw [String.ofList_toList]
    exact List.contains_iff_mem.mpr (h named hnamed)
  rw [fields, if_pos hall]
  exact congrArg some (funext fun name => lookup_keyed entries name)

theorem orDefault_some {α : Type} (v : Value) (fallback : α) (extract : Value → Option α) :
    orDefault (some v) fallback extract = extract v := rfl

theorem orDefault_none {α : Type} (fallback : α) (extract : Value → Option α) :
    orDefault none fallback extract = some fallback := rfl

/-- The section of the network is read back, with its address as its text shows it. -/
theorem extractNet_entries (net : NetConfig) :
    crates.extractNet (.table .header (keyed
      [("bind_addr_v4", .string (crates.printAddr net.bindAddrV4)),
        ("relay_mode", .string net.relayMode.asStr.toList),
        ("relay_urls", strings (net.relayUrls.map String.toList))])) =
      some { net with bindAddrV4 := net.bindAddrV4.shown } := by
  rw [Crates.extractNet, fields_keyed (by simp)]
  simp only [Option.bind_eq_bind, Option.bind_some, Option.pure_def, List.lookup_cons,
    String.reduceBEq, orDefault_some, extractAddr_print, extractRelayMode_asStr, extractStrings]

/-- This member with every address as its text shows it. -/
def CoreMember.shown (member : CoreMember) : CoreMember :=
  { member with addrs := member.addrs.map SocketAddr.shown }

/-- A founding member is read back, with its addresses as their texts show them. -/
theorem extractCoreMember_value (member : CoreMember) :
    crates.extractCoreMember (member.value crates) = some member.shown := by
  have hvalue : member.value crates = .table .inline (keyed
      ([("member", .string (crates.printKey member.member)), ("name", .string member.name.toList),
        ("addrs", strings (member.addrs.map crates.printAddr))] ++
        member.relay.toList.map fun relay => ("relay", .string relay.toList))) := by
    obtain ⟨id, name, addrs, _ | relay⟩ := member <;> rfl
  rw [hvalue, Crates.extractCoreMember, fields_keyed (by cases member.relay <;> simp)]
  obtain ⟨id, name, addrs, _ | relay⟩ := member <;>
    simp [orDefault, List.lookup, extractMember_print, extractString_toList, extractAddrs,
      CoreMember.shown]

/-- The core group is read back, member by member. -/
theorem extractConsensus_entries (core : List CoreMember) :
    crates.extractConsensus (.table .header (keyed
      [("core", .array false (core.map (CoreMember.value crates)))])) =
      some { core := core.map CoreMember.shown } := by
  rw [Crates.extractConsensus, fields_keyed (by simp)]
  simp only [Option.bind_eq_bind, Option.bind_some, Option.pure_def, List.lookup_cons,
    String.reduceBEq, orDefault_some, extractList_map extractCoreMember_value]

/-- The section of the interface is read back, with its address as its text shows it. -/
theorem extractApi_entries (api : ApiConfig) :
    crates.extractApi (.table .header (keyed
      [("enabled", .boolean api.enabled), ("bind_addr", .string (crates.printAddr api.bindAddr)),
        ("max_upload_bytes", .integer api.maxUploadBytes.toNat)])) =
      some { api with bindAddr := api.bindAddr.shown } := by
  rw [Crates.extractApi, fields_keyed (by simp)]
  simp only [Option.bind_eq_bind, Option.bind_some, Option.pure_def, List.lookup_cons,
    String.reduceBEq, orDefault_some, extractAddr_print, extractBool, extractU64_integer]

/-- A download directory is read back if it is UTF-8; another one was written with losses. -/
theorem extractLibrary_entries (text : String) :
    crates.extractLibrary (.table .header (keyed [("download_dir", .string text.toList)])) =
      some { downloadDir := .utf8 text } := by
  rw [Crates.extractLibrary, fields_keyed (by simp)]
  simp only [Option.bind_eq_bind, Option.bind_some, Option.pure_def, List.lookup_cons,
    String.reduceBEq, orDefault_some, extractString_toList, Option.map_some]

theorem extractAvailability_entries (availability : AvailabilityConfig) :
    crates.extractAvailability (.table .header (keyed
      [("beat_interval_secs", .integer (availability.beatIntervalSecs.1 : ℕ))])) =
      some availability := by
  rw [Crates.extractAvailability, fields_keyed (by simp)]
  simp only [Option.bind_eq_bind, Option.bind_some, Option.pure_def, List.lookup_cons,
    String.reduceBEq, orDefault_some, extractNonZero_integer]

/-- No limit is read from no line: what is not there has no default either. -/
theorem extractStorage_entries (storage : StorageConfig) :
    crates.extractStorage (.table .header (keyed
      (("gc_interval_secs", .integer (storage.gcIntervalSecs.1 : ℕ)) ::
        optionalEntry "limit_bytes" storage.limitBytes))) = some storage := by
  obtain ⟨secs, _ | limit⟩ := storage
  all_goals
    rw [Crates.extractStorage, fields_keyed (by simp [optionalEntry])]
    simp only [optionalEntry, Option.toList, List.map_cons, List.map_nil, Option.bind_eq_bind,
      Option.bind_some, Option.pure_def, List.lookup_cons, List.lookup_nil, String.reduceBEq,
      orDefault_some, orDefault_none, extractNonZero_integer, Option.map_some]
  rfl

/-- Nor have the two rates one. -/
theorem extractTransfer_entries (transfer : TransferConfig) :
    crates.extractTransfer (.table .header (keyed
      (("max_fetches", .integer (transfer.maxFetches.1 : ℕ)) ::
        (optionalEntry "max_download_rate" transfer.maxDownloadRate ++
          optionalEntry "max_upload_rate" transfer.maxUploadRate)))) = some transfer := by
  obtain ⟨fetches, _ | down, _ | up⟩ := transfer
  all_goals
    rw [Crates.extractTransfer, fields_keyed (by simp [optionalEntry])]
    simp only [optionalEntry, Option.toList, List.map_cons, List.map_nil, List.nil_append,
      List.cons_append, Option.bind_eq_bind, Option.bind_some, Option.pure_def, List.lookup_cons,
      List.lookup_nil, String.reduceBEq, orDefault_some, orDefault_none, extractNonZero_integer,
      Option.map_some]
  all_goals rfl

/-- A group's settings are read back field by field. They pass the check they are read with,
since nothing else can be written. -/
theorem extractGroup_entries (settings : {settings : GroupSettings // settings.Fits}) :
    crates.extractGroup (.table .header (keyed settings.1.entries)) = some settings := by
  obtain ⟨settings, hfits⟩ := settings
  have hnat : ∀ (field : Option Value) (fallback n : ℕ), field = some (.integer n) →
      orDefault field fallback extractNat = some n := by
    rintro _ fallback n rfl
    exact extractNat_integer n
  have hpos : ∀ (field : Option Value) (fallback n : ℕ+), field = some (.integer (n : ℕ)) →
      orDefault field fallback extractPos = some n := by
    rintro _ fallback n rfl
    exact extractPos_integer n
  have hbool : ∀ (field : Option Value) (fallback b : Bool), field = some (.boolean b) →
      orDefault field fallback extractBool = some b := by
    rintro _ fallback b rfl
    rfl
  -- one field after the other
  have hbind : ∀ {α : Type} {x : Option α} {a : α} {b : {settings : GroupSettings // settings.Fits}}
      {f : α → Option {settings : GroupSettings // settings.Fits}},
      x = some a → f a = some b → x.bind f = some b := by
    rintro α _ a b f rfl h
    exact h
  refine hbind (fields_keyed (by simp [GroupSettings.entries])) ?_
  refine hbind (hpos _ _ settings.replicas rfl) ?_
  refine hbind (hnat _ _ settings.capBytes rfl) ?_
  refine hbind (hpos _ _ settings.weightStepBytes rfl) ?_
  refine hbind (hnat _ _ settings.minPledgeBytes rfl) ?_
  refine hbind (hpos _ _ settings.pendingExpiry rfl) ?_
  refine hbind (hnat _ _ settings.settleSecs rfl) ?_
  refine hbind (hnat _ _ settings.maxSettleSecs rfl) ?_
  refine hbind (hnat _ _ settings.emergencyAfterSecs rfl) ?_
  refine hbind (hnat _ _ settings.minTransferRate rfl) ?_
  refine hbind (hbool _ _ settings.probes rfl) ?_
  refine hbind (hpos _ _ settings.probeEverySecs rfl) ?_
  refine hbind (hnat _ _ settings.failureWindowSecs rfl) ?_
  exact dif_pos hfits

/-! ## A file whose strings are plain and whose integers are small -/

/-- A configuration with every address as its text shows it. -/
def Config.shown (config : Config) : Config :=
  { config with
    net := { config.net with bindAddrV4 := config.net.bindAddrV4.shown }
    consensus := { core := config.consensus.core.map CoreMember.shown }
    api := { config.api with bindAddr := config.api.bindAddr.shown } }

/-- The tables of a configuration, section by section. -/
def Config.tables (crates : Crates) (config : Config) : List (String × Value) :=
  (config.entries crates).map fun named => (named.1, .table .header (keyed named.2))

/-- What a starter file is read as is the configuration, as a table of tables. -/
theorem table_document :
    (config.document crates).sections.table = keyed (config.tables crates) := by
  rw [Toml.Sections.table, sections_document, List.map_map, keyed, Config.tables, List.map_map]
  rfl

/-- What is written with the keys of what is below it, and then others. -/
theorem merge_keyed {old new : List (String × Value)}
    (h : List.Forall₂ (fun o w => o.1 = w.1 ∧ mergeValue o.2 w.2 = w.2) old (new.take old.length))
    (hnodup : (new.map Prod.fst).Nodup) :
    mergeEntries (keyed old) (keyed new) = keyed new := by
  have hsplit : keyed new = keyed (new.take old.length) ++ keyed (new.drop old.length) := by
    rw [keyed, keyed, keyed, ← List.map_append, List.take_append_drop]
  have hkeys := nodup_toList hnodup
  rw [← keys_keyed, hsplit] at hkeys
  rw [hsplit]
  refine mergeEntries_eq ?_ hkeys
  refine List.forall₂_map_left_iff.mpr (List.forall₂_map_right_iff.mpr (h.imp fun o w how => ?_))
  exact ⟨congrArg String.toList how.1, how.2⟩

/-- A section takes the place of its defaults, if it has their keys first and in their order. -/
theorem merge_section {old new : List (String × Value)}
    (h : List.Forall₂ (fun o w => o.1 = w.1 ∧ mergeValue o.2 w.2 = w.2) old (new.take old.length))
    (hnodup : (new.map Prod.fst).Nodup) :
    mergeValue (tableOf old) (.table .header (keyed new)) = .table .header (keyed new) := by
  have hmerge : mergeValue (tableOf old) (.table .header (keyed new)) =
      .table .header (mergeEntries (keyed old) (keyed new)) := rfl
  rw [hmerge, merge_keyed h hnodup]

/-- Seven sections are always there, and the group's is if there are settings. -/
theorem tables_eq : config.tables crates =
    ((config.entries crates).take 7).map (fun named => (named.1, .table .header (keyed named.2))) ++
      config.group.toList.map fun settings =>
        ("group", .table .header (keyed settings.1.entries)) := by
  rw [Config.tables, Config.entries, List.map_append, List.map_map]
  rfl

/-- No section is there twice. -/
theorem nodup_tables : ((config.tables crates).map Prod.fst).Nodup := by
  have hall : ["net", "consensus", "api", "library", "availability", "storage", "transfer",
    "group"].Nodup := by decide
  rw [tables_eq, List.map_append, List.map_map, List.map_map]
  cases config.group with
  | none => exact hall.sublist (List.sublist_append_left _ ["group"])
  | some settings => exact hall

/-- Every default gives way to what is written. -/
theorem merge_defaults :
    mergeEntries crates.defaults (keyed (config.tables crates)) = keyed (config.tables crates) := by
  have hnodup : ∀ named ∈ config.entries crates, (named.2.map Prod.fst).Nodup := nodup_entries
  rw [Config.entries, List.forall_mem_append] at hnodup
  simp only [List.forall_mem_cons] at hnodup
  obtain ⟨⟨hnet, hcore, hapi, hlibrary, havailability, hstorage, htransfer, -⟩, -⟩ := hnodup
  have hone : ∀ {o w : String × Value}, o.1 = w.1 → mergeValue o.2 w.2 = w.2 →
      List.Forall₂ (fun o w => o.1 = w.1 ∧ mergeValue o.2 w.2 = w.2) [o] [w] :=
    fun hname hvalue => .cons ⟨hname, hvalue⟩ .nil
  have hsections : List.Forall₂ (fun o w => o.1 = w.1 ∧ mergeValue o.2 w.2 = w.2)
      crates.defaults (keyed ((config.tables crates).take 7)) := by
    refine .cons ⟨rfl, merge_section ?_ hnet⟩ (.cons ⟨rfl, merge_section ?_ hcore⟩
      (.cons ⟨rfl, merge_section ?_ hapi⟩ (.cons ⟨rfl, merge_section ?_ hlibrary⟩
        (.cons ⟨rfl, merge_section ?_ havailability⟩ (.cons ⟨rfl, merge_section ?_ hstorage⟩
          (.cons ⟨rfl, merge_section ?_ htransfer⟩ .nil))))))
    · exact .cons ⟨rfl, rfl⟩ (.cons ⟨rfl, rfl⟩ (hone rfl rfl))
    · exact hone rfl rfl
    · exact .cons ⟨rfl, rfl⟩ (.cons ⟨rfl, rfl⟩ (hone rfl rfl))
    all_goals exact hone rfl rfl
  have hsplit : keyed (config.tables crates) =
      keyed ((config.tables crates).take 7) ++ keyed ((config.tables crates).drop 7) := by
    rw [keyed, keyed, keyed, ← List.map_append, List.take_append_drop]
  have hkeys : (((config.tables crates).map Prod.fst).map String.toList).Nodup :=
    nodup_toList nodup_tables
  rw [← keys_keyed, hsplit] at hkeys
  rw [hsplit]
  exact mergeEntries_eq hsections hkeys

/-- The tables of a configuration hold it, its addresses as they are shown. -/
theorem extract_tables {text : String} (hdir : config.library.downloadDir = .utf8 text) :
    crates.extract (.table .header (keyed (config.tables crates))) = some config.shown := by
  have hbind : ∀ {α : Type} {x : Option α} {a : α} {b : Config} {f : α → Option Config},
      x = some a → f a = some b → x.bind f = some b := by
    rintro α _ a b f rfl h
    exact h
  have hnames : ∀ entry ∈ config.tables crates, entry.1 ∈ ["net", "consensus", "api", "library",
      "availability", "storage", "transfer", "group"] := by
    rw [tables_eq, List.forall_mem_append, List.forall_mem_map, List.forall_mem_map]
    simp [Config.entries]
  have hfield : ∀ {α : Type} {field : Option Value} {v : Value} {fallback a : α}
      {extract : Value → Option α}, field = some v → extract v = some a →
        orDefault field fallback extract = some a := by
    rintro α _ v fallback a extract rfl h
    exact h
  have hlibrary : crates.extractLibrary (.table .header (keyed
      [("download_dir", .string (crates.display config.library.downloadDir))])) =
      some config.library := by
    have hvalue : config.library = { downloadDir := .utf8 text } := by rw [← hdir]
    rw [hvalue]
    exact extractLibrary_entries text
  have hgroup : orDefault ((config.tables crates).lookup "group") none
      (fun value => (crates.extractGroup value).map some) = some config.group := by
    have hlookup : (config.tables crates).lookup "group" =
        config.group.map fun settings => .table .header (keyed settings.1.entries) := by
      rw [tables_eq]
      cases config.group <;> rfl
    rw [hlookup]
    cases config.group with
    | none => rfl
    | some settings => exact congrArg (Option.map some) (extractGroup_entries settings)
  -- one section after the other
  refine hbind (fields_keyed hnames) ?_
  refine hbind (hfield rfl (extractNet_entries config.net)) ?_
  refine hbind (hfield rfl (extractConsensus_entries config.consensus.core)) ?_
  refine hbind (hfield rfl (extractApi_entries config.api)) ?_
  refine hbind (hfield rfl hlibrary) ?_
  refine hbind (hfield rfl (extractAvailability_entries config.availability)) ?_
  refine hbind (hfield rfl (extractStorage_entries config.storage)) ?_
  refine hbind (hfield rfl (extractTransfer_entries config.transfer)) ?_
  exact hbind hgroup rfl

/-- A file is loaded in three steps: it is read, it says nothing of the directory it lies
in, and what it is over the defaults is taken for a configuration. -/
theorem load_eq_ok {text : Text} : load crates (some text) [] = .ok config ↔
    ∃ root, Toml.read crates.bare text = some root ∧ root.lookup "data_dir".toList = none ∧
      crates.extract (.table .header (mergeEntries crates.defaults root)) = some config := by
  have hread : ((some text).map (Toml.read crates.bare)).getD (some []) =
      Toml.read crates.bare text := rfl
  rw [load, hread]
  cases Toml.read crates.bare text with
  | none =>
    refine iff_of_false (fun h => ?_) fun h => ?_
    · cases h
    · obtain ⟨root, hroot, -⟩ := h
      cases hroot
  | some root =>
    rw [Option.bind_some]
    dsimp only
    rw [mergeEntries_nil]
    constructor
    · intro h
      split_ifs at h with hdir
      refine ⟨root, rfl, Option.not_isSome_iff_eq_none.mp hdir, ?_⟩
      cases hextract : crates.extract (.table .header (mergeEntries crates.defaults root)) with
      | none => rw [hextract] at h; cases h
      | some found => rw [hextract] at h; exact congrArg some (Except.ok.inj h)
    · rintro ⟨_, hroot, hdir, hextract⟩
      obtain rfl := Option.some.inj hroot
      rw [if_neg (Option.not_isSome_iff_eq_none.mpr hdir), hextract]

/-- A missing file is not an error: every default is what its own type takes for it. -/
theorem load_none : load crates none [] = .ok default := by
  have hdefaults : crates.defaults = keyed ((default : Config).tables crates) := rfl
  have hextract : crates.extract (.table .header crates.defaults) =
      some (default : Config).shown := hdefaults ▸ extract_tables rfl
  rw [load]
  simp only [Option.map_none, Option.getD_none, Option.bind_some, List.lookup_nil,
    Option.isSome_none, mergeEntries_nil, hextract]
  rfl

/-- **A starter file is read as the configuration it was written from**, as long as TOML
takes what was written. -/
theorem read_starter (h : config.Legible) :
    Toml.read crates.bare (config.toStarterToml crates) = some (keyed (config.tables crates)) := by
  obtain ⟨text, hdir, -⟩ := h.rest.downloadDir
  rw [Config.toStarterToml, starterLines_eq, ← table_document]
  exact Toml.read_document silent_preamble tidy_document ((reads_document hdir).mpr h)

/-- **A starter file whose strings are plain and whose integers are small** loads as what it
came from, but for the flow information of addresses. -/
theorem load_starter (h : config.Legible) :
    load crates (some (config.toStarterToml crates)) [] = .ok config.shown := by
  obtain ⟨text, hdir, -⟩ := h.rest.downloadDir
  refine load_eq_ok.mpr ⟨_, read_starter h, ?_, ?_⟩
  · rw [lookup_keyed, tables_eq]
    cases config.group <;> rfl
  · rw [merge_defaults, extract_tables hdir]

/-! ## A file that loads as what it came from

What is read for a key is what the struct is taken out of, whatever else is in the file. -/

/-- A key of a section, under the defaults and in the merged tables. -/
theorem find_merged {root : Entries} (old : Entries) {name key : Text} {v : Value}
    (hv : ∀ made entries, v ≠ .table made entries)
    (h : Toml.find [name, key] root = some v) :
    ∃ made entries, (mergeEntries old root).lookup name = some (.table made entries) ∧
      entries.lookup key = some v := by
  obtain ⟨u, hu, hinside⟩ := Option.bind_eq_some_iff.mp h
  rw [if_neg (List.cons_ne_nil key [])] at hinside
  obtain ⟨made, inner, rfl⟩ : ∃ made inner, u = .table made inner := by
    cases u with
    | table made inner => exact ⟨made, inner, rfl⟩
    | _ => cases hinside
  have hkey : inner.lookup key = some v := by simpa [Toml.find, Value.inside] using hinside
  rw [lookup_mergeEntries, hu]
  cases old.lookup name with
  | none => exact ⟨made, inner, rfl, hkey⟩
  | some w =>
    cases w with
    | table made' below =>
      refine ⟨made', mergeEntries below inner, rfl, ?_⟩
      rw [lookup_mergeEntries, hkey]
      cases below.lookup key with
      | none => rfl
      | some lower => exact congrArg some (mergeValue_of_inside hv)
    | _ => exact ⟨made, inner, rfl, hkey⟩

/-- A field of a struct that is taken out of a table. -/
theorem fields_table {names : List String} {made : Toml.Made} {entries : Entries}
    {get : String → Option Value} (h : fields crates names (.table made entries) = some get)
    (name : String) : get name = entries.lookup name.toList := by
  rw [fields] at h
  split_ifs at h
  exact congrFun (Option.some.inj h).symm name

/-- Each section of a configuration is taken out of its own table. -/
theorem sections_of_extract {entries : Entries}
    (h : crates.extract (.table .header entries) = some config) :
    orDefault (entries.lookup "net".toList) default crates.extractNet = some config.net ∧
    orDefault (entries.lookup "consensus".toList) default crates.extractConsensus =
      some config.consensus ∧
    orDefault (entries.lookup "library".toList) default crates.extractLibrary =
      some config.library := by
  rw [Crates.extract] at h
  obtain ⟨get, hget, h⟩ := Option.bind_eq_some_iff.mp h
  obtain ⟨net, hnet, h⟩ := Option.bind_eq_some_iff.mp h
  obtain ⟨consensus, hconsensus, h⟩ := Option.bind_eq_some_iff.mp h
  obtain ⟨api, -, h⟩ := Option.bind_eq_some_iff.mp h
  obtain ⟨library, hlibrary, h⟩ := Option.bind_eq_some_iff.mp h
  obtain ⟨availability, -, h⟩ := Option.bind_eq_some_iff.mp h
  obtain ⟨storage, -, h⟩ := Option.bind_eq_some_iff.mp h
  obtain ⟨transfer, -, h⟩ := Option.bind_eq_some_iff.mp h
  obtain ⟨group, -, h⟩ := Option.bind_eq_some_iff.mp h
  obtain rfl := Option.some.inj h
  rw [fields_table hget] at hnet hconsensus hlibrary
  exact ⟨hnet, hconsensus, hlibrary⟩

/-- What the table of the file holds is what the configuration is taken out of: its relay
URLs, -/
theorem relayUrls_of_extract {root : Entries} {v : Value}
    (h : crates.extract (.table .header (mergeEntries crates.defaults root)) = some config)
    (hv : ∀ made entries, v ≠ .table made entries)
    (hfind : Toml.find ["net".toList, "relay_urls".toList] root = some v) :
    extractList extractString v = some config.net.relayUrls := by
  obtain ⟨made, entries, hsection, hkey⟩ := find_merged crates.defaults hv hfind
  have hnet := (sections_of_extract h).1
  rw [hsection, orDefault_some, Crates.extractNet] at hnet
  obtain ⟨get, hget, hnet⟩ := Option.bind_eq_some_iff.mp hnet
  obtain ⟨bindAddr, -, hnet⟩ := Option.bind_eq_some_iff.mp hnet
  obtain ⟨mode, -, hnet⟩ := Option.bind_eq_some_iff.mp hnet
  obtain ⟨urls, hurls, hnet⟩ := Option.bind_eq_some_iff.mp hnet
  rw [fields_table hget, hkey, orDefault_some] at hurls
  rw [hurls, ← Option.some.inj hnet]

/-- its core group -/
theorem core_of_extract {root : Entries} {v : Value}
    (h : crates.extract (.table .header (mergeEntries crates.defaults root)) = some config)
    (hv : ∀ made entries, v ≠ .table made entries)
    (hfind : Toml.find ["consensus".toList, "core".toList] root = some v) :
    extractList crates.extractCoreMember v = some config.consensus.core := by
  obtain ⟨made, entries, hsection, hkey⟩ := find_merged crates.defaults hv hfind
  have hconsensus := (sections_of_extract h).2.1
  rw [hsection, orDefault_some, Crates.extractConsensus] at hconsensus
  obtain ⟨get, hget, hconsensus⟩ := Option.bind_eq_some_iff.mp hconsensus
  obtain ⟨core, hcore, hconsensus⟩ := Option.bind_eq_some_iff.mp hconsensus
  rw [fields_table hget, hkey, orDefault_some] at hcore
  rw [hcore, ← Option.some.inj hconsensus]

/-- and its download directory. -/
theorem downloadDir_of_extract {root : Entries} {v : Value}
    (h : crates.extract (.table .header (mergeEntries crates.defaults root)) = some config)
    (hv : ∀ made entries, v ≠ .table made entries)
    (hfind : Toml.find ["library".toList, "download_dir".toList] root = some v) :
    (extractString v).map PathBuf.utf8 = some config.library.downloadDir := by
  obtain ⟨made, entries, hsection, hkey⟩ := find_merged crates.defaults hv hfind
  have hlibrary := (sections_of_extract h).2.2
  rw [hsection, orDefault_some, Crates.extractLibrary] at hlibrary
  obtain ⟨get, hget, hlibrary⟩ := Option.bind_eq_some_iff.mp hlibrary
  obtain ⟨dir, hdir, hlibrary⟩ := Option.bind_eq_some_iff.mp hlibrary
  rw [fields_table hget, hkey, orDefault_some] at hdir
  rw [hdir, ← Option.some.inj hlibrary]

/-- A path that is loaded is a text. -/
theorem utf8_of_extract {entries : Entries}
    (h : crates.extract (.table .header entries) = some config) :
    ∃ text : String, config.library.downloadDir = .utf8 text := by
  have hdefault : (default : LibraryConfig).downloadDir = .utf8 "downloads" := rfl
  have hlibrary := (sections_of_extract h).2.2
  cases hfield : entries.lookup "library".toList with
  | none =>
    rw [hfield, orDefault_none] at hlibrary
    exact ⟨_, by rw [← Option.some.inj hlibrary, hdefault]⟩
  | some v =>
    rw [hfield, orDefault_some, Crates.extractLibrary] at hlibrary
    obtain ⟨get, -, hlibrary⟩ := Option.bind_eq_some_iff.mp hlibrary
    obtain ⟨dir, hdir, hlibrary⟩ := Option.bind_eq_some_iff.mp hlibrary
    rw [← Option.some.inj hlibrary]
    cases hget : get "download_dir" with
    | none =>
      rw [hget, orDefault_none, hdefault] at hdir
      exact ⟨_, (Option.some.inj hdir).symm⟩
    | some field =>
      rw [hget, orDefault_some] at hdir
      obtain ⟨text, -, rfl⟩ := Option.map_eq_some_iff.mp hdir
      exact ⟨text, rfl⟩

/-- What a list was read from is a list of as many, each of which was read. -/
theorem forall₂_of_mapM {α β : Type} {f : α → Option β} {l : List α} {l' : List β}
    (h : l.mapM f = some l') : List.Forall₂ (fun b a => f a = some b) l' l := by
  induction l generalizing l' with
  | nil =>
    obtain rfl := Option.some.inj h
    exact .nil
  | cons a l ih =>
    rw [List.mapM_cons] at h
    obtain ⟨b, hb, h⟩ := Option.bind_eq_some_iff.mp h
    obtain ⟨bs, hbs, h⟩ := Option.bind_eq_some_iff.mp h
    obtain rfl := Option.some.inj h
    exact .cons hb (ih hbs)

/-- Only a string is read as a string, and as itself. -/
theorem eq_of_extractString {v : Value} {s : String} (h : extractString v = some s) :
    v = .string s.toList := by
  cases v with
  | string text =>
    obtain rfl := Option.some.inj h
    rw [String.toList_ofList]
  | _ => cases h

/-! ### What the table tells of each line -/

variable {root : Entries} {name : Text}

/-- There is nothing to be told of a comment. -/
theorem told_comments (lines : List Text) :
    ∀ line ∈ Toml.comments lines, line.Told crates.bare root name := by
  intro line hmem
  obtain ⟨text, -, rfl⟩ := List.mem_map.mp hmem
  trivial

theorem told_numberLine (key : String) (n : ℕ) :
    (numberLine key n).Told crates.bare root name :=
  (Toml.tells_nat n _).mono (fun _ h => h) Toml.readsAs_nat

theorem told_boolLine (key : String) (b : Bool) : (boolLine key b).Told crates.bare root name :=
  Toml.tells_of (Toml.readsAs_bool b)

/-- A plain string is told of: it reads. -/
theorem told_plain {key : String} {s : Text} (h : Plain s) :
    (stringLine key s).Told crates.bare root name := Toml.tells_of (Toml.readsAs_quote h)

/-- A value that may not be there is a number or a comment. -/
theorem told_optional (key : String) (value : Option (NonZero 64)) (sample : ℕ) :
    ∀ line ∈ optional key value sample, line.Told crates.bare root name := by
  cases value with
  | none => exact told_comments _
  | some n => exact List.forall_mem_singleton.mpr (told_numberLine key n.1)

/-- The settings of a group have no strings in them. -/
theorem told_group (settings : GroupSettings) :
    ∀ line ∈ settings.lines, line.Told crates.bare root name := by
  simp only [GroupSettings.lines, List.forall_mem_cons, told_numberLine, told_boolLine, true_and]
  exact List.forall_mem_nil _

/-- Relay URLs are taken from a list of strings, one for each. -/
theorem told_relayUrls
    (h : crates.extract (.table .header (mergeEntries crates.defaults root)) = some config) :
    Line.Told crates.bare root "net".toList (.setting ⟨"relay_urls".toList,
      quoted (config.net.relayUrls.map String.toList),
      strings (config.net.relayUrls.map String.toList)⟩) := by
  refine Tells.mono (Toml.tells_array (fun s _ => Toml.opens_quote s)
    (fun s _ => Toml.tells_quote s) (fun s _ hs => ⟨_, Toml.readsAs_quote hs⟩) fun vs hvs => ?_)
    (fun _ h => h) readsAs_strings.mpr
  have hlist := relayUrls_of_extract h (by rintro _ _ ⟨⟩) (hvs rfl)
  refine List.forall₂_map_left_iff.mpr ((forall₂_of_mapM hlist).imp fun url v hv _ => ?_)
  exact eq_of_extractString hv

/-- A founding member is taken from a table with its name and relay in it. -/
theorem tells_extracted (member : CoreMember) :
    Tells crates.bare (member.toTomlInline crates)
      (fun v => crates.extractCoreMember v = some member) member.Legible := by
  refine tells_member fun entries hentries => ?_
  rw [Crates.extractCoreMember] at hentries
  obtain ⟨get, hget, hentries⟩ := Option.bind_eq_some_iff.mp hentries
  obtain ⟨id, -, hentries⟩ := Option.bind_eq_some_iff.mp hentries
  obtain ⟨name, hname, hentries⟩ := Option.bind_eq_some_iff.mp hentries
  obtain ⟨addrs, -, hentries⟩ := Option.bind_eq_some_iff.mp hentries
  obtain ⟨relay, hrelay, hentries⟩ := Option.bind_eq_some_iff.mp hentries
  obtain rfl := Option.some.inj hentries
  refine ⟨fun v hv => ?_, fun url hurl v hv => ?_⟩
  · rw [fields_table hget, hv, orDefault_some] at hname
    exact eq_of_extractString hname
  · rw [fields_table hget, hv, orDefault_some] at hrelay
    obtain ⟨url', hurl', heq⟩ := Option.map_eq_some_iff.mp hrelay
    obtain rfl : relay = some url := hurl
    obtain rfl := Option.some.inj heq
    exact eq_of_extractString hurl'

/-- If the core group is loaded as it was, what is written of its members is plain: the
names and relays read back are those that were written. -/
theorem told_core
    (h : crates.extract (.table .header (mergeEntries crates.defaults root)) = some config) :
    Line.Told crates.bare root "consensus".toList (.setting ⟨"core".toList,
      Toml.bracketed (config.consensus.core.map (CoreMember.toTomlInline crates)),
      .array false (config.consensus.core.map (CoreMember.value crates))⟩) := by
  refine Tells.mono (Toml.tells_array (fun member _ => opens_member)
    (fun member _ => tells_extracted member) (fun member _ hm => ⟨_, readsAs_member hm⟩)
    fun vs hvs => ?_) (fun _ h => h) readsAs_core.mpr
  exact forall₂_of_mapM (core_of_extract h (by rintro _ _ ⟨⟩) (hvs rfl))

/-- If the download directory is loaded as it was, what is written of it is plain. -/
theorem told_downloadDir {text : String}
    (h : crates.extract (.table .header (mergeEntries crates.defaults root)) = some config)
    (hdir : config.library.downloadDir = .utf8 text) :
    Line.Told crates.bare root "library".toList
      (stringLine "download_dir" (crates.display config.library.downloadDir)) := by
  refine (Toml.tells_string _).mono (fun v hv t ht => ?_) Toml.readsAs_quote
  subst ht
  have hfound := downloadDir_of_extract h (by rintro _ _ ⟨⟩) (hv rfl)
  rw [hdir] at hfound ⊢
  obtain ⟨found, hstring, heq⟩ := Option.map_eq_some_iff.mp hfound
  obtain rfl := PathBuf.utf8.inj heq
  exact Value.string.inj (eq_of_extractString hstring)

/-- If a file is loaded as the configuration it came from, its table tells so of every line. -/
theorem told_document {text : String}
    (h : crates.extract (.table .header (mergeEntries crates.defaults root)) = some config)
    (hdir : config.library.downloadDir = .utf8 text) :
    ∀ named ∈ config.document crates, ∀ line ∈ named.2,
      line.Told crates.bare root named.1 := by
  have hend : ∀ P : Text × List Line → Prop, (∀ named ∈ ([] : Toml.Document), P named) ↔ True :=
    fun P => iff_of_true (List.forall_mem_nil P) trivial
  have hnil : ∀ P : Line → Prop, (∀ line ∈ ([] : List Line), P line) ↔ True := fun P =>
    iff_of_true (List.forall_mem_nil P) trivial
  have hcomments : ∀ (name : Text) (lines : List Text),
      (∀ line ∈ Toml.comments lines, line.Told crates.bare root name) ↔ True :=
    fun name lines => iff_of_true (told_comments lines) trivial
  have hoptional : ∀ (name : Text) (key : String) (value : Option (NonZero 64)) (sample : ℕ),
      (∀ line ∈ optional key value sample, line.Told crates.bare root name) ↔ True :=
    fun name key value sample => iff_of_true (told_optional key value sample) trivial
  have haddr : ∀ (name : Text) (key : String) (addr : SocketAddr),
      (stringLine key (crates.printAddr addr)).Told crates.bare root name :=
    fun name key addr => told_plain (SocketAddr.plain_print addr)
  have hmode : ∀ (name : Text) (key : String),
      (stringLine key config.net.relayMode.asStr.toList).Told crates.bare root name :=
    fun name key => told_plain (by cases config.net.relayMode <;> decide)
  unfold Config.document Config.standing
  simp only [List.forall_mem_append, List.forall_mem_cons, List.forall_mem_map, hend, hnil,
    hcomments, hoptional, haddr, hmode, told_numberLine, told_boolLine, and_true, true_and]
  exact ⟨⟨told_relayUrls h, told_core h, told_downloadDir h hdir⟩,
    fun settings _ => told_group settings.1⟩

/-- The last line is a comment, or a number below 2³². -/
theorem exists_last_line : ∃ done name before line,
    config.document crates = done ++ [(name, before ++ [line])] ∧ line.Reads crates.bare := by
  rw [Config.document]
  cases hgroup : config.group with
  | some settings =>
    refine ⟨config.standing crates, "group".toList, settings.1.lines.dropLast,
      numberLine "failure_window_secs" settings.1.failureWindowSecs, rfl, ?_⟩
    obtain ⟨-, -, -, -, -, -, -, -, -, -, hwindow⟩ := settings.2
    exact reads_numberLine.mpr (hwindow.trans (by decide))
  | none =>
    have hlast : ∀ (body : List Line) (lines : List Text), lines ≠ [] →
        ∃ before text, body ++ Toml.comments lines = before ++ [.silent text] := by
      intro body lines hlines
      refine ⟨body ++ Toml.comments lines.dropLast, lines.getLast hlines, ?_⟩
      rw [List.append_assoc]
      conv_lhs => rw [← List.dropLast_append_getLast hlines]
      rw [Toml.comments, List.map_append]
      rfl
    obtain ⟨body, hstanding⟩ : ∃ body, config.standing crates =
        (config.standing crates).dropLast ++ [("transfer".toList, body ++ Toml.comments
          (fixed [""] ++ aboutGroup ++ if config.group.isSome then [] else groupComments))] :=
      ⟨_, rfl⟩
    have hnone : (if config.group.isSome then [] else groupComments) = groupComments := by
      rw [hgroup]
      rfl
    obtain ⟨before, text, heq⟩ := hlast body (fixed [""] ++ aboutGroup ++ groupComments)
      (List.append_ne_nil_of_right_ne_nil _ (List.cons_ne_nil _ _))
    rw [hnone, heq] at hstanding
    refine ⟨(config.standing crates).dropLast, "transfer".toList, before, .silent text, ?_, trivial⟩
    exact (List.append_nil _).trans hstanding

/-- **A starter file that loads as what it came from** has plain strings and small integers. -/
theorem legible_of_load (h : load crates (some (config.toStarterToml crates)) [] = .ok config) :
    config.Legible := by
  obtain ⟨root, hread, -, hextract⟩ := load_eq_ok.mp h
  obtain ⟨text, hdir⟩ := utf8_of_extract hextract
  rw [Config.toStarterToml, starterLines_eq] at hread
  exact (reads_document hdir).mp (Toml.reads_of_read silent_preamble tidy_document exists_last_line
    hread (told_document hextract hdir))

/-! ## Addresses -/

/-- The flow information of an address. -/
def SocketAddr.flow : SocketAddr → UInt32
  | .v4 _ _ => 0
  | .v6 _ _ flow _ => flow

/-- An address is what its text shows exactly if it has no flow information, which is
written nowhere. -/
theorem SocketAddr.shown_eq_iff {addr : SocketAddr} : addr.shown = addr ↔ addr.flow = 0 := by
  cases addr with
  | v4 ip port => exact iff_of_true rfl rfl
  | v6 ip port flow scope =>
    rw [SocketAddr.shown, SocketAddr.v6.injEq]
    exact ⟨fun h => h.2.2.1.symm, fun h => ⟨rfl, rfl, h.symm, rfl⟩⟩

/-- No address of a configuration carries flow information. -/
structure Config.Flowless (config : Config) : Prop where
  bindAddrV4 : config.net.bindAddrV4.flow = 0
  core : ∀ member ∈ config.consensus.core, ∀ addr ∈ member.addrs, addr.flow = 0
  bindAddr : config.api.bindAddr.flow = 0

theorem map_eq_self_iff {α : Type} {f : α → α} {l : List α} : l.map f = l ↔ ∀ a ∈ l, f a = a := by
  have hid := List.map_inj_left (f := f) (g := id) (l := l)
  rwa [List.map_id] at hid

/-- So is a founding member, if none of its addresses has any. -/
theorem CoreMember.shown_eq_iff {member : CoreMember} :
    member.shown = member ↔ ∀ addr ∈ member.addrs, addr.flow = 0 := by
  have haddrs : member.shown = member ↔ member.addrs.map SocketAddr.shown = member.addrs := by
    cases member
    simp [CoreMember.shown]
  rw [haddrs, map_eq_self_iff]
  exact forall_congr' fun addr => imp_congr_right fun _ => SocketAddr.shown_eq_iff

/-- And so is a configuration. -/
theorem Config.shown_eq_iff : config.shown = config ↔ config.Flowless := by
  constructor
  · intro h
    have hnet : config.shown.net.bindAddrV4 = config.net.bindAddrV4 := by rw [h]
    have hcore : config.shown.consensus.core = config.consensus.core := by rw [h]
    have hapi : config.shown.api.bindAddr = config.api.bindAddr := by rw [h]
    exact ⟨SocketAddr.shown_eq_iff.mp hnet,
      fun member hmem => CoreMember.shown_eq_iff.mp (map_eq_self_iff.mp hcore member hmem),
      SocketAddr.shown_eq_iff.mp hapi⟩
  · rintro ⟨hnet, hcore, hapi⟩
    have hmembers : config.consensus.core.map CoreMember.shown = config.consensus.core :=
      map_eq_self_iff.mpr fun member hmem => CoreMember.shown_eq_iff.mpr (hcore member hmem)
    rw [Config.shown, SocketAddr.shown_eq_iff.mpr hnet, SocketAddr.shown_eq_iff.mpr hapi, hmembers]

/-- When a starter file loads as what it came from. -/
theorem load_starter_iff : load crates (some (config.toStarterToml crates)) [] = .ok config ↔
    config.Legible ∧ config.Flowless := by
  constructor
  · intro h
    have hlegible := legible_of_load h
    exact ⟨hlegible, Config.shown_eq_iff.mp (Except.ok.inj ((load_starter hlegible).symm.trans h))⟩
  · rintro ⟨hlegible, hflowless⟩
    rw [load_starter hlegible, Config.shown_eq_iff.mpr hflowless]

/-! ## Joining -/

/-- What a ticket brings into a configuration is what TOML takes for it. -/
structure Ticket.Legible (ticket : Ticket) : Prop where
  relayUrls : ∀ url ∈ ticket.relayUrls, Plain url.toList
  relay : ∀ entry ∈ ticket.core, ∀ relay ∈ entry.2.relay, Plain relay.toList
  addrs : ∀ entry ∈ ticket.core, ∀ addr ∈ entry.2.direct, addr.flow = 0

/-- What a node joins with loads if the ticket's strings are plain and the rest of its own
configuration is: the URLs and the core group are the ticket's. -/
theorem joining_iff {ticket : Ticket} :
    (config.joining ticket).Legible ∧ (config.joining ticket).Flowless ↔
      ticket.Legible ∧ config.LegibleRest ∧ config.net.bindAddrV4.flow = 0 ∧
        config.api.bindAddr.flow = 0 := by
  have hcore : (config.joining ticket).consensus.core = ticket.core.map fun entry =>
      { member := entry.1, name := "", addrs := entry.2.direct.sort SocketAddr.Before,
        relay := entry.2.relay } := rfl
  constructor
  · rintro ⟨⟨hurls, hmembers, hrest⟩, ⟨hnet, haddrs, hapi⟩⟩
    rw [hcore, List.forall_mem_map] at hmembers haddrs
    refine ⟨⟨hurls, fun entry hmem => (hmembers entry hmem).relay, fun entry hmem addr haddr => ?_⟩,
      ⟨hrest.1, hrest.2, hrest.3, hrest.4, hrest.5, hrest.6, hrest.7⟩, hnet, hapi⟩
    exact haddrs entry hmem addr ((Finset.mem_sort _).mpr haddr)
  · rintro ⟨⟨hurls, hrelays, haddrs⟩, hrest, hnet, hapi⟩
    refine ⟨⟨hurls, ?_, ⟨hrest.1, hrest.2, hrest.3, hrest.4, hrest.5, hrest.6, hrest.7⟩⟩,
      ⟨hnet, ?_, hapi⟩⟩
    · rw [hcore, List.forall_mem_map]
      exact fun entry hmem => ⟨List.forall_mem_nil _, hrelays entry hmem⟩
    · rw [hcore, List.forall_mem_map]
      exact fun entry hmem addr haddr => haddrs entry hmem addr ((Finset.mem_sort _).mp haddr)

/-- What joining writes is the file of the node's own configuration with the ticket's
directions in it. -/
theorem join_eq_ok {file : Option Text} {env : Entries} {stored : Except Unit (Option GroupId)}
    {ticket : Ticket} {text : Text} (h : join crates file env stored ticket = .ok text) :
    ∃ config, load crates file env = .ok config ∧
      (config.joining ticket).toStarterToml crates = text := by
  cases hload : load crates file env with
  | error error => simp only [join, hload, reduceCtorEq] at h
  | ok config =>
    cases stored with
    | error error => simp only [join, hload, reduceCtorEq] at h
    | ok existing =>
      cases hother : existing.filter (· ≠ ticket.group) with
      | some group => simp only [join, hload, hother, reduceCtorEq] at h
      | none =>
        simp only [join, hload, hother] at h
        exact ⟨config, rfl, Except.ok.inj h⟩

/-- **A starter file loads as what it came from** if and only if its strings are plain, its
integers fit in TOML's and its addresses have no flow information. So does the file that a
node joins with, where the strings are the ticket's. -/
theorem reloads_iff (crates : Crates) :
    (∀ config : Config, load crates (some (config.toStarterToml crates)) [] = .ok config ↔
      config.Legible ∧ config.Flowless) ∧
    ∀ file env stored ticket text, join crates file env stored ticket = .ok text →
      ∃ config, load crates file env = .ok config ∧
        (load crates (some text) [] = .ok (config.joining ticket) ↔
          ticket.Legible ∧ config.LegibleRest ∧ config.net.bindAddrV4.flow = 0 ∧
            config.api.bindAddr.flow = 0) := by
  refine ⟨fun config => load_starter_iff, fun file env stored ticket text h => ?_⟩
  obtain ⟨config, hload, htext⟩ := join_eq_ok h
  exact ⟨config, hload, htext ▸ load_starter_iff.trans joining_iff⟩

/-! ### A ticket with a quote in it -/

/-- A number in so many hex digits. -/
def hexText (len n : ℕ) : Text := (Hex.print len n).map fun byte => Char.ofNat byte.toNat

def hexNumber (len : ℕ) (text : Text) : Option ℕ :=
  Hex.parse len (text.map fun c => UInt8.ofNat c.toNat)

theorem hexText_chars {len n : ℕ} {c : Char} (h : c ∈ hexText len n) :
    UInt8.toNat (UInt8.ofNat c.toNat) = c.toNat ∧ c.isAlphanum = true ∧
      (Toml.hexDigit? c).isSome = true := by
  have hchars : ∀ n < 128, (48 ≤ n ∧ n ≤ 57) ∨ (97 ≤ n ∧ n ≤ 102) →
      UInt8.toNat (UInt8.ofNat (Char.ofNat n).toNat) = (Char.ofNat n).toNat ∧
        (Char.ofNat n).isAlphanum = true ∧ (Toml.hexDigit? (Char.ofNat n)).isSome = true := by
    decide
  obtain ⟨byte, hbyte, rfl⟩ := List.mem_map.mp h
  have hrange : (48 ≤ byte.toNat ∧ byte.toNat ≤ 57) ∨ (97 ≤ byte.toNat ∧ byte.toNat ≤ 102) :=
    Hex.mem_print hbyte
  exact hchars byte.toNat (by omega) hrange

/-- Hex digits are read back. -/
theorem hexNumber_hexText {len n : ℕ} (h : n < 16 ^ len) :
    hexNumber len (hexText len n) = some n := by
  have hbyte : ∀ byte ∈ Hex.print len n,
      ((fun c : Char => UInt8.ofNat c.toNat) ∘ fun byte : UInt8 => Char.ofNat byte.toNat) byte =
        byte := by
    have hchars : ∀ n < 128, (Char.ofNat n).toNat = n := by decide
    intro byte hmem
    have hsmall : byte.toNat < 128 := by
      have hrange : (48 ≤ byte.toNat ∧ byte.toNat ≤ 57) ∨ (97 ≤ byte.toNat ∧ byte.toNat ≤ 102) :=
        Hex.mem_print hmem
      omega
    rw [Function.comp_apply, hchars _ hsmall, UInt8.ofNat_toNat]
  rw [hexNumber, hexText, List.map_map, List.map_congr_left hbyte, List.map_id',
    Hex.parse_print h]

/-- Crates that write keys and IPv6 addresses in hex digits, and read no floats or times. -/
def hexCrates : Crates where
  bare _ := none
  positional _ _ := none
  relayMode _ := none
  lossy _ := ""
  ipv6 :=
    { print := fun ip => hexText 32 ip.toNat
      parse := fun text => (hexNumber 32 text).map (BitVec.ofNat 128)
      parse_print := fun ip => by
        rw [hexNumber_hexText (by exact ip.isLt), Option.map_some, BitVec.ofNat_toNat,
          BitVec.setWidth_eq]
      chars := fun ip c hc => .inl (hexText_chars hc).2.2 }
  printKey member := hexText 64 member.key.toNat
  parseKey text := (hexNumber 64 text).map fun n => ⟨BitVec.ofNat 256 n⟩
  parse_printKey member := by
    rw [hexNumber_hexText (by exact member.key.isLt), Option.map_some, BitVec.ofNat_toNat,
      BitVec.setWidth_eq]
  printKey_alphanum member := List.all_eq_true.mpr fun c hc => (hexText_chars hc).2.1

/-- Directions with one relay URL. -/
def relayTicket (url : String) : Ticket where
  group := ⟨0⟩
  core := []
  relayMode := .custom
  relayUrls := [url]

/-- What a node without a configuration of its own joins with. -/
theorem join_relayTicket (url : String) : join hexCrates none [] (.ok none) (relayTicket url) =
    .ok (((default : Config).joining (relayTicket url)).toStarterToml hexCrates) := by
  simp only [join, load_none]
  rfl

/-- The defaults are plain and small. -/
theorem legibleRest_default : (default : Config).LegibleRest where
  downloadDir := ⟨"downloads", rfl, by decide⟩
  maxUploadBytes := by decide
  limitBytes := by rintro _ ⟨⟩
  maxFetches := by decide
  maxDownloadRate := by rintro _ ⟨⟩
  maxUploadRate := by rintro _ ⟨⟩
  group := by rintro _ ⟨⟩

/-- The file of a ticket with a URL. -/
theorem reloads_iff_url : ∃ text,
    join hexCrates none [] (.ok none) (relayTicket "https://relay.example/") = .ok text ∧
      load hexCrates (some text) [] =
        .ok ((default : Config).joining (relayTicket "https://relay.example/")) := by
  have hjoin := join_relayTicket "https://relay.example/"
  obtain ⟨config, hload, hiff⟩ := (reloads_iff hexCrates).2 _ _ _ _ _ hjoin
  obtain rfl : config = default := Except.ok.inj (hload.symm.trans load_none)
  refine ⟨_, hjoin, hiff.mpr ⟨⟨?_, ?_, ?_⟩, legibleRest_default, rfl, rfl⟩⟩
  · exact List.forall_mem_singleton.mpr (by decide)
  · rintro _ ⟨⟩
  · rintro _ ⟨⟩

/-- The file of a ticket whose URL ends the list it is put in and opens a section does not
load as what was joined. -/
theorem forged_ticket : load hexCrates none [] = .ok default ∧ ∃ text,
    join hexCrates none [] (.ok none) (relayTicket "x\"]\n[group]\nreplicas = 1\n#") = .ok text ∧
      load hexCrates (some text) [] ≠
        .ok ((default : Config).joining (relayTicket "x\"]\n[group]\nreplicas = 1\n#")) := by
  refine ⟨load_none, _, join_relayTicket _, fun h => ?_⟩
  have hurl := (load_starter_iff.mp h).1.relayUrls _ (List.mem_singleton_self _)
  exact absurd hurl (by decide)

end Distlib
