import Distlib.Core.Config
import Distlib.Lib.TomlDocument

/-!
# The starter file as a document

The lines of a starter file with what each is meant to say, and what it takes for
them to be read as they are meant (`reads_document`): the file puts strings between
quotes as they are and writes integers of 64 bits, so its strings have to be plain,
and its integers small enough for TOML.
-/

namespace Distlib

open Toml (Text Value Entries Line Plain ReadsAs Tells Pair)

/-! ## What may be written -/

/-- What is written of a founding member is what TOML takes for it. -/
structure CoreMember.Legible (member : CoreMember) : Prop where
  name : Plain member.name.toList
  relay : ∀ relay ∈ member.relay, Plain relay.toList

/-- What is written of a group's settings is what TOML takes for it. -/
structure GroupSettings.Legible (settings : GroupSettings) : Prop where
  capBytes : settings.capBytes < 2 ^ 63
  weightStepBytes : (settings.weightStepBytes : ℕ) < 2 ^ 63
  minPledgeBytes : settings.minPledgeBytes < 2 ^ 63
  pendingExpiry : (settings.pendingExpiry : ℕ) < 2 ^ 63
  minTransferRate : settings.minTransferRate < 2 ^ 63

/-- What is written of a configuration, besides its relay URLs and its core group, is what
TOML takes for it. -/
structure Config.LegibleRest (config : Config) : Prop where
  downloadDir : ∃ text : String, config.library.downloadDir = .utf8 text ∧ Plain text.toList
  maxUploadBytes : config.api.maxUploadBytes.toNat < 2 ^ 63
  limitBytes : ∀ limit ∈ config.storage.limitBytes, (limit.1 : ℕ) < 2 ^ 63
  maxFetches : (config.transfer.maxFetches.1 : ℕ) < 2 ^ 63
  maxDownloadRate : ∀ rate ∈ config.transfer.maxDownloadRate, (rate.1 : ℕ) < 2 ^ 63
  maxUploadRate : ∀ rate ∈ config.transfer.maxUploadRate, (rate.1 : ℕ) < 2 ^ 63
  group : ∀ settings ∈ config.group, settings.1.Legible

/-- What is written of a configuration is what TOML takes for it. -/
structure Config.Legible (config : Config) : Prop where
  relayUrls : ∀ url ∈ config.net.relayUrls, Plain url.toList
  core : ∀ member ∈ config.consensus.core, member.Legible
  rest : config.LegibleRest

/-! ## The document -/

def stringLine (key : String) (s : Text) : Line := .setting ⟨key.toList, Toml.quote s, .string s⟩

def numberLine (key : String) (n : ℕ) : Line := .setting ⟨key.toList, digits n, .integer n⟩

def boolLine (key : String) (b : Bool) : Line := .setting ⟨key.toList, Toml.ofBool b, .boolean b⟩

/-- Strings between quotes, as the value they are meant to be. -/
def strings (values : List Text) : Value := .array false (values.map Value.string)

/-- A founding member's pairs. -/
def CoreMember.pairs (crates : Crates) (member : CoreMember) : List Pair :=
  ⟨"member".toList, Toml.quote (crates.printKey member.member),
      .string (crates.printKey member.member)⟩ ::
    [⟨"name".toList, Toml.quote member.name.toList, .string member.name.toList⟩,
      ⟨"addrs".toList, quoted (member.addrs.map crates.printAddr),
        strings (member.addrs.map crates.printAddr)⟩] ++
    member.relay.toList.map fun relay =>
      ⟨"relay".toList, Toml.quote relay.toList, .string relay.toList⟩

/-- The table a founding member is meant to be. -/
def CoreMember.value (crates : Crates) (member : CoreMember) : Value :=
  .table .inline ((member.pairs crates).map fun pair => (pair.key, pair.value))

/-- A line for a value that may not be there. -/
def optional (key : String) (value : Option (NonZero 64)) (sample : ℕ) : List Line :=
  match value with
  | some value => [numberLine key value.1]
  | none => Toml.comments ["# ".toList ++ Toml.setting key.toList (digits sample)]

/-- The lines of the group's settings. -/
def GroupSettings.lines (settings : GroupSettings) : List Line :=
  [numberLine "replicas" settings.replicas, numberLine "cap_bytes" settings.capBytes,
    numberLine "weight_step_bytes" settings.weightStepBytes,
    numberLine "min_pledge_bytes" settings.minPledgeBytes,
    numberLine "pending_expiry" settings.pendingExpiry, numberLine "settle_secs" settings.settleSecs,
    numberLine "max_settle_secs" settings.maxSettleSecs,
    numberLine "emergency_after_secs" settings.emergencyAfterSecs,
    numberLine "min_transfer_rate" settings.minTransferRate, boolLine "probes" settings.probes,
    numberLine "probe_every_secs" settings.probeEverySecs,
    numberLine "failure_window_secs" settings.failureWindowSecs]

/-- The defaults of a group's settings, commented out. -/
def groupComments : List Text :=
  (heading "group" ++ (default : GroupSettings).lines.map Line.text).map ("# ".toList ++ ·)

/-- The headers of a starter file that are always there, and the lines below each. -/
def Config.standing (crates : Crates) (config : Config) : Toml.Document :=
  [("net".toList,
      Toml.comments aboutBindAddrV4 ++
      [stringLine "bind_addr_v4" (crates.printAddr config.net.bindAddrV4)] ++
      Toml.comments aboutRelayMode ++
      [stringLine "relay_mode" config.net.relayMode.asStr.toList,
        .setting ⟨"relay_urls".toList, quoted (config.net.relayUrls.map String.toList),
          strings (config.net.relayUrls.map String.toList)⟩] ++
      Toml.comments (fixed [""])),
    ("consensus".toList,
      Toml.comments aboutCore ++
      [.setting ⟨"core".toList,
        Toml.bracketed (config.consensus.core.map (CoreMember.toTomlInline crates)),
        .array false (config.consensus.core.map (CoreMember.value crates))⟩] ++
      Toml.comments (fixed [""])),
    ("api".toList,
      Toml.comments aboutApi ++
      [boolLine "enabled" config.api.enabled,
        stringLine "bind_addr" (crates.printAddr config.api.bindAddr)] ++
      Toml.comments aboutMaxUpload ++
      [numberLine "max_upload_bytes" config.api.maxUploadBytes.toNat] ++
      Toml.comments (fixed [""])),
    ("library".toList,
      Toml.comments aboutDownloadDir ++
      [stringLine "download_dir" (crates.display config.library.downloadDir)] ++
      Toml.comments (fixed [""])),
    ("availability".toList,
      Toml.comments aboutBeatInterval ++
      [numberLine "beat_interval_secs" config.availability.beatIntervalSecs.1] ++
      Toml.comments (fixed [""])),
    ("storage".toList,
      Toml.comments aboutGcInterval ++
      [numberLine "gc_interval_secs" config.storage.gcIntervalSecs.1] ++
      Toml.comments aboutLimit ++
      optional "limit_bytes" config.storage.limitBytes 100000000000 ++
      Toml.comments (fixed [""])),
    ("transfer".toList,
      Toml.comments aboutMaxFetches ++
      [numberLine "max_fetches" config.transfer.maxFetches.1] ++
      Toml.comments aboutMaxDownloadRate ++
      optional "max_download_rate" config.transfer.maxDownloadRate 10000000 ++
      Toml.comments aboutMaxUploadRate ++
      optional "max_upload_rate" config.transfer.maxUploadRate 10000000 ++
      Toml.comments (fixed [""] ++ aboutGroup ++
        if config.group.isSome then [] else groupComments))]

/-- The starter file as a document. -/
def Config.document (crates : Crates) (config : Config) : Toml.Document :=
  config.standing crates ++
    config.group.toList.map fun settings => ("group".toList, settings.1.lines)

variable {crates : Crates} {config : Config}

/-- The line a founding member is written in is its pairs between braces; the relay is the
last of them, if there is one. -/
theorem CoreMember.toTomlInline_eq (member : CoreMember) :
    member.toTomlInline crates = Toml.braced ((member.pairs crates).map Pair.setting) := by
  obtain ⟨id, name, addrs, _ | relay⟩ := member <;> rfl

theorem text_comments (lines : List Text) : (Toml.comments lines).map Line.text = lines := by
  rw [Toml.comments, List.map_map]
  exact List.map_id lines

/-- A value that is not there is written as a comment, so that an operator sees what could be. -/
theorem text_optional (key : String) (value : Option (NonZero 64)) (sample : ℕ) :
    (optional key value sample).map Line.text = optionalSetting key value sample := by
  cases value <;> rfl

theorem text_stringLine (key : String) (s : Text) :
    (stringLine key s).text = Toml.setting key.toList (Toml.quote s) := rfl

theorem text_numberLine (key : String) (n : ℕ) :
    (numberLine key n).text = Toml.setting key.toList (digits n) := rfl

theorem text_boolLine (key : String) (b : Bool) :
    (boolLine key b).text = Toml.setting key.toList (Toml.ofBool b) := rfl

theorem text_setting (pair : Pair) :
    (Line.setting pair).text = Toml.setting pair.key pair.text := rfl

/-- Settings that there are none of are not a section: they are there as comments below the
section before. -/
theorem groupSection_eq (group : Option {settings : GroupSettings // settings.Fits}) :
    groupSection group = aboutGroup ++ (if group.isSome then [] else groupComments) ++
      Toml.Document.lines
        (group.toList.map fun settings => ("group".toList, settings.1.lines)) := by
  cases group with
  | none => exact (List.append_nil _).symm
  | some settings =>
    have hnone : (if (some settings).isSome then [] else groupComments) = [] := rfl
    rw [hnone, List.append_nil]
    rfl

/-- The lines that are written are those of the document. -/
theorem starterLines_eq :
    config.starterLines crates = preamble ++ (config.document crates).lines := by
  have hlines : ∀ a b : Toml.Document, Toml.Document.lines (a ++ b) =
      Toml.Document.lines a ++ Toml.Document.lines b := fun _ _ => List.flatMap_append
  have hcons : ∀ (name : Text) (body : List Line) (more : Toml.Document),
      Toml.Document.lines ((name, body) :: more) =
        Toml.headed name :: (body.map Line.text ++ Toml.Document.lines more) := fun _ _ _ => rfl
  have hnil : Toml.Document.lines [] = [] := rfl
  unfold Config.document Config.starterLines
  rewrite [hlines, groupSection_eq]
  unfold Config.standing
  -- one line after the other
  simp only [hcons, hnil, List.map_append, text_comments, text_optional, List.append_assoc,
    heading, set, List.map_cons, List.cons_append, List.nil_append, text_stringLine, text_numberLine,
    text_boolLine, text_setting]

/-! ## What it takes for the lines to be read -/

variable {bare : Text → Option (Value × Text)}

/-- Strings are written as they are, so nothing may be in them that TOML escapes. -/
theorem reads_stringLine {key : String} {s : Text} : (stringLine key s).Reads bare ↔ Plain s :=
  Toml.readsAs_quote_iff

/-- TOML has integers of 64 bits with a sign; the program has them without. -/
theorem reads_numberLine {key : String} {n : ℕ} : (numberLine key n).Reads bare ↔ n < 2 ^ 63 :=
  Toml.readsAs_nat_iff

theorem reads_boolLine (key : String) (b : Bool) : (boolLine key b).Reads bare :=
  Toml.readsAs_bool b

/-- There is nothing to be read in a comment. -/
theorem reads_comments (lines : List Text) : ∀ line ∈ Toml.comments lines, line.Reads bare := by
  intro line hmem
  obtain ⟨text, -, rfl⟩ := List.mem_map.mp hmem
  trivial

/-- A value that may not be there asks for what a value asks for, if it is. -/
theorem reads_optional {key : String} {value : Option (NonZero 64)} {sample : ℕ} :
    (∀ line ∈ optional key value sample, line.Reads bare) ↔
      ∀ n ∈ value, (n.1 : ℕ) < 2 ^ 63 := by
  cases value with
  | none => exact iff_of_true (reads_comments _) fun _ h => by cases h
  | some n =>
    refine List.forall_mem_singleton.trans (reads_numberLine.trans ?_)
    exact ⟨fun h _ hn => Option.some.inj hn ▸ h, fun h => h n rfl⟩

/-- Strings between quotes are read one by one. -/
theorem readsAs_strings {values : List Text} :
    ReadsAs bare (quoted values) (strings values) ↔ ∀ s ∈ values, Plain s := by
  constructor
  · intro h
    have htells : Tells bare (quoted values) (· = strings values) (∀ s ∈ values, Plain s) := by
      refine Toml.tells_array (fun s _ => Toml.opens_quote s) (fun s _ => Toml.tells_quote s)
        (fun s _ hs => ⟨_, Toml.readsAs_quote hs⟩) fun vs hvs => ?_
      obtain rfl : vs = values.map Value.string := (Value.array.inj hvs).2
      exact List.forall₂_map_right_iff.mpr (List.forall₂_same.mpr fun s _ _ => rfl)
    exact h.good htells rfl
  · intro h
    have harray : ReadsAs bare (Toml.bracketed
          ((values.map fun s => (Toml.quote s, Value.string s)).map Prod.fst))
        (.array false ((values.map fun s => (Toml.quote s, Value.string s)).map Prod.snd)) :=
      Toml.readsAs_array fun item hmem => by
        obtain ⟨s, hs, rfl⟩ := List.mem_map.mp hmem
        exact Toml.readsAs_quote (h s hs)
    rw [List.map_map, List.map_map] at harray
    exact harray

/-! ### A founding member -/

variable {member : CoreMember}

/-- A key is written in letters and digits, none of which TOML escapes. -/
theorem plain_printKey (id : MemberId) : Plain (crates.printKey id) := fun c hc =>
  Toml.plain_of_bare (by
    rw [Toml.isBare, List.all_eq_true.mp (crates.printKey_alphanum id) c hc]
    rfl)

/-- Addresses are always read: what they are written in is plain. -/
theorem readsAs_addrs (addrs : List SocketAddr) :
    ReadsAs bare (quoted (addrs.map crates.printAddr)) (strings (addrs.map crates.printAddr)) :=
  readsAs_strings.mpr fun s hs => by
    obtain ⟨addr, -, rfl⟩ := List.mem_map.mp hs
    exact SocketAddr.plain_print addr

/-- What holds of a founding member's pairs. -/
theorem forall_pairs {P : Pair → Prop} : (∀ pair ∈ member.pairs crates, P pair) ↔
    P ⟨"member".toList, Toml.quote (crates.printKey member.member),
        .string (crates.printKey member.member)⟩ ∧
      P ⟨"name".toList, Toml.quote member.name.toList, .string member.name.toList⟩ ∧
      P ⟨"addrs".toList, quoted (member.addrs.map crates.printAddr),
        strings (member.addrs.map crates.printAddr)⟩ ∧
      ∀ relay ∈ member.relay,
        P ⟨"relay".toList, Toml.quote relay.toList, .string relay.toList⟩ := by
  rw [CoreMember.pairs, List.forall_mem_append, List.forall_mem_cons, List.forall_mem_cons,
    List.forall_mem_singleton, List.forall_mem_map, and_assoc, and_assoc]
  simp only [Option.mem_toList]
  rfl

/-- Of a founding member only the name and the relay can go wrong: the key and the addresses
are written by programs. -/
theorem reads_pairs : (∀ pair ∈ member.pairs crates, ReadsAs bare pair.text pair.value) ↔
    member.Legible := by
  rw [forall_pairs]
  constructor
  · rintro ⟨-, hname, -, hrelay⟩
    exact ⟨Toml.readsAs_quote_iff.mp hname,
      fun relay hmem => Toml.readsAs_quote_iff.mp (hrelay relay hmem)⟩
  · rintro ⟨hname, hrelay⟩
    exact ⟨Toml.readsAs_quote (plain_printKey _), Toml.readsAs_quote hname, readsAs_addrs _,
      fun relay hmem => Toml.readsAs_quote (hrelay relay hmem)⟩

/-- The keys of a founding member, in order. -/
theorem keys_pairs : (member.pairs crates).map Pair.key =
    ["member".toList, "name".toList, "addrs".toList] ++
      member.relay.toList.map fun _ => "relay".toList := by
  rw [CoreMember.pairs, List.map_append, List.map_map]
  rfl

theorem bareKey_pairs : ∀ pair ∈ member.pairs crates, Toml.BareKey pair.key := by
  rw [forall_pairs]
  have hkeys : ∀ key ∈ ["member", "name", "addrs", "relay"], Toml.BareKey key.toList := by decide
  exact ⟨hkeys _ (by decide), hkeys _ (by decide), hkeys _ (by decide),
    fun _ _ => hkeys _ (by decide)⟩

theorem opens_pairs : ∀ pair ∈ member.pairs crates, Toml.Opens pair.text := by
  rw [forall_pairs]
  exact ⟨Toml.opens_quote _, Toml.opens_quote _, ⟨'[', _, rfl, by decide⟩, fun _ _ => Toml.opens_quote _⟩

/-- Where the list of the core group is read, an item begins with its brace. -/
theorem opens_member : Toml.Opens (member.toTomlInline crates) := ⟨'{', _, rfl, by decide⟩

/-- A founding member is read as the table it is meant to be. -/
theorem readsAs_member (h : member.Legible) :
    ReadsAs bare (member.toTomlInline crates) (member.value crates) := by
  have hnodup : ((member.pairs crates).map Pair.key).Nodup := by
    have hkeys : (["member", "name", "addrs", "relay"].map String.toList).Nodup := by decide
    rw [keys_pairs]
    cases member.relay with
    | none => exact hkeys.sublist (List.sublist_append_left _ ["relay".toList])
    | some relay => exact hkeys
  rw [CoreMember.toTomlInline_eq]
  exact Toml.readsAs_inline bareKey_pairs hnodup (reads_pairs.mpr h)

/-- And it is read as something that has this member's name and relay, if it has any, only
if it is legible. -/
theorem tells_member {means : Value → Prop}
    (hmeans : ∀ entries, means (.table .inline entries) →
      (∀ v, entries.lookup "name".toList = some v → v = .string member.name.toList) ∧
      ∀ relay ∈ member.relay, ∀ v, entries.lookup "relay".toList = some v →
        v = .string relay.toList) :
    Tells bare (member.toTomlInline crates) means member.Legible := by
  have hquote : ∀ s, Tells bare (Toml.quote s) (fun v => v.settled = true → v = .string s)
      (ReadsAs bare (Toml.quote s) (.string s)) := fun s =>
    (Toml.tells_quote s).mono (fun _ h => h) Toml.readsAs_quote
  have htells : ∀ pair ∈ member.pairs crates, Tells bare pair.text
      (fun v => v.settled = true → v = pair.value) (ReadsAs bare pair.text pair.value) := by
    rw [forall_pairs]
    exact ⟨hquote _, hquote _, Toml.tells_of (readsAs_addrs _), fun _ _ => hquote _⟩
  rw [CoreMember.toTomlInline_eq]
  refine Tells.mono (Toml.tells_inline bareKey_pairs opens_pairs htells fun entries hentries => ?_)
    (fun _ h => h) reads_pairs.mp
  obtain ⟨hname, hrelay⟩ := hmeans entries hentries
  exact forall_pairs.mpr ⟨.inl (Toml.readsAs_quote (plain_printKey _)), .inr hname,
    .inl (readsAs_addrs _), fun relay hmem => .inr (hrelay relay hmem)⟩

/-- The table a founding member is meant to be has what it is read for. -/
theorem tells_value :
    Tells bare (member.toTomlInline crates) (· = member.value crates) member.Legible := by
  refine tells_member fun entries hentries => ?_
  obtain rfl := (Value.table.inj hentries).2
  refine ⟨fun v hv => (Option.some.inj hv).symm, fun relay hrelay v hv => ?_⟩
  rw [CoreMember.pairs, Option.mem_def.mp hrelay] at hv
  exact (Option.some.inj hv).symm

/-! ### The whole document -/

/-- The core group is read one member after the other. -/
theorem readsAs_core {core : List CoreMember} :
    ReadsAs bare (Toml.bracketed (core.map (CoreMember.toTomlInline crates)))
      (.array false (core.map (CoreMember.value crates))) ↔ ∀ member ∈ core, member.Legible := by
  constructor
  · intro h
    have htells : Tells bare (Toml.bracketed (core.map (CoreMember.toTomlInline crates)))
        (· = .array false (core.map (CoreMember.value crates)))
        (∀ member ∈ core, member.Legible) := by
      refine Toml.tells_array (fun member _ => opens_member) (fun member _ => tells_value)
        (fun member _ hmember => ⟨_, readsAs_member hmember⟩) fun vs hvs => ?_
      obtain rfl : vs = core.map (CoreMember.value crates) := (Value.array.inj hvs).2
      exact List.forall₂_map_right_iff.mpr (List.forall₂_same.mpr fun member _ => rfl)
    exact h.good htells rfl
  · intro h
    have harray : ReadsAs bare (Toml.bracketed ((core.map fun member =>
          (member.toTomlInline crates, member.value crates)).map Prod.fst))
        (.array false ((core.map fun member =>
          (member.toTomlInline crates, member.value crates)).map Prod.snd)) :=
      Toml.readsAs_array fun item hmem => by
        obtain ⟨member, hmember, rfl⟩ := List.mem_map.mp hmem
        exact readsAs_member (h member hmember)
    rw [List.map_map, List.map_map] at harray
    exact harray

/-- Settings that fit their types are read if those of 64 bits are small enough; the seconds
are of 32. -/
theorem reads_group {settings : GroupSettings} (h : settings.Fits) :
    (∀ line ∈ settings.lines, line.Reads bare) ↔ settings.Legible := by
  obtain ⟨hreplicas, -, -, -, -, hsettle, hmax, hemergency, -, hprobe, hwindow⟩ := h
  simp only [GroupSettings.lines, List.forall_mem_cons, reads_numberLine]
  constructor
  · rintro ⟨-, hcap, hstep, hpledge, hpending, -, -, -, hrate, -⟩
    exact ⟨hcap, hstep, hpledge, hpending, hrate⟩
  · rintro ⟨hcap, hstep, hpledge, hpending, hrate⟩
    exact ⟨by omega, hcap, hstep, hpledge, hpending, by omega, by omega, by omega, hrate,
      reads_boolLine _ _, by omega, by omega, List.forall_mem_nil _⟩

/-- **What it takes for a starter file to be read as it is meant**: its strings are plain,
and its integers are small enough. -/
theorem reads_document {text : String} (hdir : config.library.downloadDir = .utf8 text) :
    (∀ named ∈ config.document crates, ∀ line ∈ named.2, line.Reads bare) ↔ config.Legible := by
  have hcomments : ∀ lines : List Text, (∀ line ∈ Toml.comments lines, line.Reads bare) ↔ True :=
    fun lines => iff_of_true (reads_comments lines) trivial
  have hflag : ∀ key b, (boolLine key b).Reads bare ↔ True := fun key b =>
    iff_of_true (reads_boolLine key b) trivial
  have haddr : ∀ key addr, (stringLine key (crates.printAddr addr)).Reads bare ↔ True :=
    fun key addr => iff_of_true (reads_stringLine.mpr (SocketAddr.plain_print addr)) trivial
  have hmode : (stringLine "relay_mode" config.net.relayMode.asStr.toList).Reads bare ↔ True := by
    refine iff_of_true (reads_stringLine.mpr ?_) trivial
    cases config.net.relayMode <;> decide
  have hsecs : ∀ (key : String) (n : NonZero 32), (numberLine key n.1).Reads bare ↔ True :=
    fun key n => iff_of_true (reads_numberLine.mpr (n.2.trans (by decide))) trivial
  have hurls : ∀ key : Text, (Line.setting ⟨key, quoted (config.net.relayUrls.map String.toList),
      strings (config.net.relayUrls.map String.toList)⟩).Reads bare ↔
        ∀ url ∈ config.net.relayUrls, Plain url.toList := fun key => by
    have hstrings : ReadsAs bare (quoted (config.net.relayUrls.map String.toList))
        (strings (config.net.relayUrls.map String.toList)) ↔ _ := readsAs_strings
    exact hstrings.trans List.forall_mem_map
  have hcore : ∀ key : Text, (Line.setting ⟨key,
      Toml.bracketed (config.consensus.core.map (CoreMember.toTomlInline crates)),
      .array false (config.consensus.core.map (CoreMember.value crates))⟩).Reads bare ↔
        ∀ member ∈ config.consensus.core, member.Legible := fun key => readsAs_core
  have hgroup : (∀ settings ∈ config.group.toList, ∀ line ∈ settings.1.lines, line.Reads bare) ↔
      ∀ settings ∈ config.group, settings.1.Legible :=
    forall_congr' fun settings => imp_congr Option.mem_toList (reads_group settings.2)
  have hnil : ∀ P : Line → Prop, (∀ line ∈ ([] : List Line), P line) ↔ True := fun P =>
    iff_of_true (List.forall_mem_nil P) trivial
  have hend : ∀ P : Text × List Line → Prop, (∀ named ∈ ([] : Toml.Document), P named) ↔ True :=
    fun P => iff_of_true (List.forall_mem_nil P) trivial
  unfold Config.document Config.standing
  simp only [List.forall_mem_append, List.forall_mem_cons, List.forall_mem_map, hnil, hend,
    and_true, true_and, hcomments, hflag, haddr, hmode, hsecs, hurls, hcore,
    hgroup, reads_optional]
  rw [reads_stringLine, reads_numberLine, reads_numberLine, hdir]
  constructor
  · rintro ⟨⟨hurl, hmember, hupload, htext, hlimit, ⟨hfetches, hdown⟩, hup⟩, hsettings⟩
    exact ⟨hurl, hmember, ⟨⟨text, hdir, htext⟩, hupload, hlimit, hfetches, hdown, hup, hsettings⟩⟩
  · rintro ⟨hurl, hmember, ⟨⟨text', hdir', htext⟩, hupload, hlimit, hfetches, hdown, hup, hsettings⟩⟩
    obtain rfl : text = text' := PathBuf.utf8.inj (hdir.symm.trans hdir')
    exact ⟨⟨hurl, hmember, hupload, htext, hlimit, ⟨hfetches, hdown⟩, hup⟩, hsettings⟩

/-! ## The table that is meant -/

/-- Keys as the reader has them. -/
def keyed (entries : List (String × Value)) : Entries :=
  entries.map fun entry => (entry.1.toList, entry.2)

/-- The entry of a value that may not be there. -/
def optionalEntry (key : String) (value : Option (NonZero 64)) : List (String × Value) :=
  value.toList.map fun value => (key, .integer (value.1 : ℕ))

/-- The table of a group's settings. -/
def GroupSettings.entries (settings : GroupSettings) : List (String × Value) :=
  [("replicas", .integer (settings.replicas : ℕ)), ("cap_bytes", .integer settings.capBytes),
    ("weight_step_bytes", .integer (settings.weightStepBytes : ℕ)),
    ("min_pledge_bytes", .integer settings.minPledgeBytes),
    ("pending_expiry", .integer (settings.pendingExpiry : ℕ)),
    ("settle_secs", .integer settings.settleSecs),
    ("max_settle_secs", .integer settings.maxSettleSecs),
    ("emergency_after_secs", .integer settings.emergencyAfterSecs),
    ("min_transfer_rate", .integer settings.minTransferRate), ("probes", .boolean settings.probes),
    ("probe_every_secs", .integer (settings.probeEverySecs : ℕ)),
    ("failure_window_secs", .integer settings.failureWindowSecs)]

/-- The table of a configuration. -/
def Config.entries (crates : Crates) (config : Config) :
    List (String × List (String × Value)) :=
  [("net",
      [("bind_addr_v4", .string (crates.printAddr config.net.bindAddrV4)),
        ("relay_mode", .string config.net.relayMode.asStr.toList),
        ("relay_urls", strings (config.net.relayUrls.map String.toList))]),
    ("consensus", [("core", .array false (config.consensus.core.map (CoreMember.value crates)))]),
    ("api",
      [("enabled", .boolean config.api.enabled),
        ("bind_addr", .string (crates.printAddr config.api.bindAddr)),
        ("max_upload_bytes", .integer config.api.maxUploadBytes.toNat)]),
    ("library", [("download_dir", .string (crates.display config.library.downloadDir))]),
    ("availability", [("beat_interval_secs", .integer (config.availability.beatIntervalSecs.1 : ℕ))]),
    ("storage",
      ("gc_interval_secs", .integer (config.storage.gcIntervalSecs.1 : ℕ)) ::
        optionalEntry "limit_bytes" config.storage.limitBytes),
    ("transfer",
      ("max_fetches", .integer (config.transfer.maxFetches.1 : ℕ)) ::
        (optionalEntry "max_download_rate" config.transfer.maxDownloadRate ++
          optionalEntry "max_upload_rate" config.transfer.maxUploadRate))] ++
    config.group.toList.map fun settings => ("group", settings.1.entries)

theorem meant_stringLine (key : String) (s : Text) (body : List Line) :
    Toml.meant (stringLine key s :: body) = (key.toList, .string s) :: Toml.meant body := rfl

theorem meant_numberLine (key : String) (n : ℕ) (body : List Line) :
    Toml.meant (numberLine key n :: body) = (key.toList, .integer n) :: Toml.meant body := rfl

theorem meant_boolLine (key : String) (b : Bool) (body : List Line) :
    Toml.meant (boolLine key b :: body) = (key.toList, .boolean b) :: Toml.meant body := rfl

theorem meant_setting (pair : Pair) (body : List Line) :
    Toml.meant (.setting pair :: body) = (pair.key, pair.value) :: Toml.meant body := rfl

/-- A comment says nothing, so a value that is not there has no entry. -/
theorem meant_optional (key : String) (value : Option (NonZero 64)) (sample : ℕ) :
    Toml.meant (optional key value sample) = keyed (optionalEntry key value) := by
  cases value <;> rfl

/-- **What the document is meant to say** is the configuration, section by section; the
comments add nothing to it. -/
theorem sections_document : (config.document crates).sections =
    (config.entries crates).map fun named => (named.1.toList, keyed named.2) := by
  have hkeyed : ∀ (entry : String × Value) (more : List (String × Value)),
      keyed (entry :: more) = (entry.1.toList, entry.2) :: keyed more := fun _ _ => rfl
  have happend : ∀ entries more : List (String × Value),
      keyed (entries ++ more) = keyed entries ++ keyed more := fun _ _ => List.map_append
  have hnil : Toml.meant [] = [] := rfl
  have hkeyedNil : keyed [] = [] := rfl
  have hgroup : ∀ settings : GroupSettings,
      Toml.meant settings.lines = keyed settings.entries := fun _ => rfl
  unfold Config.document Config.standing Config.entries Toml.Document.sections
  simp only [List.map_cons, List.map_map, Toml.meant_append, Toml.meant_comments,
    meant_stringLine, meant_numberLine, meant_boolLine, meant_setting, meant_optional, hnil, hkeyed,
    hkeyedNil, happend, List.nil_append, List.append_nil, List.cons_append]
  rfl

/-! ## What a document looks like -/

/-- The sections, in order. That of the group is there only if there are settings. -/
theorem names_document : (config.document crates).map Prod.fst =
    ["net", "consensus", "api", "library", "availability", "storage", "transfer"].map
        String.toList ++
      config.group.toList.map fun _ => "group".toList := by
  rw [Config.document, List.map_append, List.map_map]
  rfl

-- a literal is unified with the list of its characters, which is faster than to evaluate `toList`
theorem silent_fixed {l : Text} {lines : List String} (h : Toml.isSilent l = true)
    (hlines : (fixed lines).all Toml.isSilent = true) :
    (fixed (String.ofList l :: lines)).all Toml.isSilent = true := by
  have hcons : fixed (String.ofList l :: lines) = (String.ofList l).toList :: fixed lines := rfl
  rw [hcons, List.all_cons, String.toList_ofList, h, hlines]
  rfl

/-- What it takes for a literal to be a bare key, asked of its characters. -/
theorem bareKey_ofList {l : Text} (h : (!l.isEmpty && l.all Toml.isBare) = true) :
    Toml.BareKey (String.ofList l).toList := by
  rw [Bool.and_eq_true, Bool.not_eq_true', List.isEmpty_eq_false_iff] at h
  rwa [String.toList_ofList]

/-- Nothing is said by what is written above the settings. -/
theorem silent_about :
    (aboutBindAddrV4.all Toml.isSilent = true ∧ aboutRelayMode.all Toml.isSilent = true ∧
      aboutCore.all Toml.isSilent = true ∧ aboutApi.all Toml.isSilent = true) ∧
    (aboutMaxUpload.all Toml.isSilent = true ∧ aboutDownloadDir.all Toml.isSilent = true ∧
      aboutBeatInterval.all Toml.isSilent = true ∧ aboutGcInterval.all Toml.isSilent = true) ∧
    aboutLimit.all Toml.isSilent = true ∧ aboutMaxFetches.all Toml.isSilent = true ∧
      aboutMaxDownloadRate.all Toml.isSilent = true ∧
      aboutMaxUploadRate.all Toml.isSilent = true := by
  refine ⟨⟨?_, ?_, ?_, ?_⟩, ⟨?_, ?_, ?_, ?_⟩, ?_, ?_, ?_, ?_⟩
  all_goals
    repeat refine silent_fixed rfl ?_
    rfl

theorem silent_preamble : preamble.all Toml.isSilent = true := by
  repeat refine silent_fixed rfl ?_
  rfl

/-- Nor by the defaults of a group's settings, which are comments. -/
theorem silent_group (group : Option {settings : GroupSettings // settings.Fits}) :
    (fixed [""] ++ aboutGroup ++ if group.isSome then [] else groupComments).all Toml.isSilent =
      true := by
  have hblank : (fixed [""]).all Toml.isSilent = true := rfl
  have habout : aboutGroup.all Toml.isSilent = true := by
    repeat refine silent_fixed rfl ?_
    rfl
  have hgroup : groupComments.all Toml.isSilent = true := by decide
  rw [List.all_append, List.all_append, hblank, habout, Bool.true_and, Bool.true_and]
  cases group with
  | none => exact hgroup
  | some settings => rfl

theorem tidy_comments {lines : List Text} :
    (∀ line ∈ Toml.comments lines, line.Tidy) ↔ lines.all Toml.isSilent = true :=
  List.forall_mem_map.trans List.all_eq_true.symm

theorem tidy_stringLine {key : String} {s : Text} :
    (stringLine key s).Tidy ↔ Toml.BareKey key.toList := and_iff_left (Toml.opens_quote s)

theorem tidy_numberLine {key : String} {n : ℕ} :
    (numberLine key n).Tidy ↔ Toml.BareKey key.toList := and_iff_left (Toml.opens_toDigits n)

theorem tidy_boolLine {key : String} {b : Bool} :
    (boolLine key b).Tidy ↔ Toml.BareKey key.toList :=
  and_iff_left (by cases b <;> exact Toml.opens_of_word rfl)

/-- A value that may not be there is a line or a comment, and tidy either way. -/
theorem tidy_optional {key : String} {value : Option (NonZero 64)} {sample : ℕ}
    (hk : Toml.BareKey key.toList)
    (h : Toml.isSilent ("# ".toList ++ Toml.setting key.toList (digits sample)) = true) :
    ∀ line ∈ optional key value sample, line.Tidy := by
  cases value with
  | none => exact List.forall_mem_singleton.mpr h
  | some n => exact List.forall_mem_singleton.mpr ⟨hk, Toml.opens_toDigits _⟩

theorem tidy_group (settings : GroupSettings) : ∀ line ∈ settings.lines, line.Tidy := by
  have hnil : (∀ line ∈ ([] : List Line), line.Tidy) ↔ True :=
    iff_of_true (List.forall_mem_nil _) trivial
  simp only [GroupSettings.lines, List.forall_mem_cons, hnil, tidy_numberLine, tidy_boolLine]
  refine ⟨?_, ?_, ?_, ?_, ?_, ?_, ?_, ?_, ?_, ?_, ?_, ?_, trivial⟩
  all_goals exact bareKey_ofList rfl

/-- Every line is a comment or a bare key with something that opens a value. -/
theorem tidy_lines : ∀ named ∈ config.document crates, ∀ line ∈ named.2, line.Tidy := by
  have hend : ∀ P : Text × List Line → Prop, (∀ named ∈ ([] : Toml.Document), P named) ↔ True :=
    fun P => iff_of_true (List.forall_mem_nil P) trivial
  have hnil : (∀ line ∈ ([] : List Line), line.Tidy) ↔ True :=
    iff_of_true (List.forall_mem_nil _) trivial
  have hurls : ∀ (key : Text) (values : List Text),
      (Line.setting ⟨key, quoted values, strings values⟩).Tidy ↔ Toml.BareKey key :=
    fun key values => and_iff_left ⟨'[', _, rfl, by decide⟩
  have hcore : ∀ (key : Text) (core : List Text) (v : Value),
      (Line.setting ⟨key, Toml.bracketed core, v⟩).Tidy ↔ Toml.BareKey key :=
    fun key core v => and_iff_left ⟨'[', _, rfl, by decide⟩
  have hgroup : (∀ settings ∈ config.group.toList, ∀ line ∈ settings.1.lines, line.Tidy) ↔ True :=
    iff_of_true (fun settings _ => tidy_group settings.1) trivial
  have hlimit : (∀ line ∈ optional "limit_bytes" config.storage.limitBytes 100000000000,
      line.Tidy) ↔ True := iff_of_true (tidy_optional (by decide) (by decide)) trivial
  have hdown : (∀ line ∈ optional "max_download_rate" config.transfer.maxDownloadRate 10000000,
      line.Tidy) ↔ True := iff_of_true (tidy_optional (by decide) (by decide)) trivial
  have hup : (∀ line ∈ optional "max_upload_rate" config.transfer.maxUploadRate 10000000,
      line.Tidy) ↔ True := iff_of_true (tidy_optional (by decide) (by decide)) trivial
  unfold Config.document Config.standing
  obtain ⟨⟨haddr, hmode, hfounders, hapi⟩, ⟨hupload, hdir, hbeat, hgc⟩, hlimits, hfetches, hdowns,
    hups⟩ := silent_about
  have hblank : (fixed [""]).all Toml.isSilent = true := rfl
  simp only [List.forall_mem_append, List.forall_mem_cons, List.forall_mem_map, hend, hnil,
    and_true, true_and, tidy_comments, tidy_stringLine, tidy_numberLine, tidy_boolLine, hurls,
    hcore, hgroup, hlimit, hdown, hup, haddr, hmode, hfounders, hapi, hupload, hdir, hbeat, hgc,
    hlimits, hfetches, hdowns, hups, hblank, silent_group]
  refine ⟨⟨?_, ?_, ?_⟩, ?_, ⟨⟨?_, ?_⟩, ?_⟩, ?_, ?_, ?_, ?_⟩
  all_goals exact bareKey_ofList rfl

theorem nodup_toList {names : List String} (h : names.Nodup) : (names.map String.toList).Nodup :=
  h.map fun _ _ heq => String.toList_inj.mp heq

/-- The keys of a table as the reader has them. -/
theorem keys_keyed (entries : List (String × Value)) :
    (keyed entries).map Prod.fst = (entries.map Prod.fst).map String.toList := by
  rw [keyed, List.map_map, List.map_map]
  rfl

/-- No key is there twice. -/
theorem nodup_entries : ∀ named ∈ config.entries crates, (named.2.map Prod.fst).Nodup := by
  have hstorage : ["gc_interval_secs", "limit_bytes"].Nodup := by decide
  have htransfer : ["max_fetches", "max_download_rate", "max_upload_rate"].Nodup := by decide
  have hgroup : ["replicas", "cap_bytes", "weight_step_bytes", "min_pledge_bytes",
    "pending_expiry", "settle_secs", "max_settle_secs", "emergency_after_secs",
    "min_transfer_rate", "probes", "probe_every_secs", "failure_window_secs"].Nodup := by decide
  rw [Config.entries, List.forall_mem_append]
  simp only [List.forall_mem_cons, List.forall_mem_map]
  refine ⟨⟨?_, ?_, ?_, ?_, ?_, ?_, ?_, List.forall_mem_nil _⟩, fun settings _ => hgroup⟩
  · exact (by decide : ["bind_addr_v4", "relay_mode", "relay_urls"].Nodup)
  · exact List.nodup_singleton "core"
  · exact (by decide : ["enabled", "bind_addr", "max_upload_bytes"].Nodup)
  · exact List.nodup_singleton "download_dir"
  · exact List.nodup_singleton "beat_interval_secs"
  · cases config.storage.limitBytes with
    | none => exact List.nodup_singleton "gc_interval_secs"
    | some limit => exact hstorage
  · cases config.transfer.maxDownloadRate <;> cases config.transfer.maxUploadRate
    · exact List.nodup_singleton "max_fetches"
    · exact (by decide : ["max_fetches", "max_upload_rate"].Nodup)
    · exact (by decide : ["max_fetches", "max_download_rate"].Nodup)
    · exact htransfer

/-- **The document is what the reader takes for one**: bare keys, none of them twice, in
sections of which none is there twice. -/
theorem tidy_document : (config.document crates).Tidy where
  headers := by
    have hnames : ∀ name ∈ (config.document crates).map Prod.fst, Toml.BareKey name := by
      have hfixed : ∀ name ∈ ["net", "consensus", "api", "library", "availability", "storage",
          "transfer"], Toml.BareKey name.toList := by
        simp only [List.forall_mem_cons]
        refine ⟨?_, ?_, ?_, ?_, ?_, ?_, ?_, List.forall_mem_nil _⟩
        all_goals exact bareKey_ofList rfl
      rw [names_document, List.forall_mem_append, List.forall_mem_map, List.forall_mem_map]
      exact ⟨hfixed, fun _ _ => bareKey_ofList rfl⟩
    exact List.forall_mem_map.mp hnames
  lines := tidy_lines
  names := by
    have hall := nodup_toList (by decide : ["net", "consensus", "api", "library", "availability",
      "storage", "transfer", "group"].Nodup)
    rw [names_document]
    cases config.group with
    | none => exact hall.sublist (List.sublist_append_left _ ["group".toList])
    | some settings => exact hall
  keys named hmem := by
    have hentries := List.mem_map_of_mem (f := fun named => (named.1, Toml.meant named.2)) hmem
    have hsections : (named.1, Toml.meant named.2) ∈ (config.document crates).sections := hentries
    rw [sections_document] at hsections
    obtain ⟨entry, hentry, heq⟩ := List.mem_map.mp hsections
    have hmeant : keyed entry.2 = Toml.meant named.2 := (Prod.mk.inj heq).2
    have hnodup := nodup_toList (nodup_entries entry hentry)
    rwa [← keys_keyed, hmeant, Toml.meant, List.map_map] at hnodup

end Distlib
