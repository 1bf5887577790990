import Distlib.Core.AddrText
import Distlib.Core.GroupSettings
import Distlib.Lib.TomlLines

/-!
# A node's configuration

What a node is told at its start: a TOML file, laid over the defaults, under what
the environment overrides. `load` reads it, `toStarterToml` writes it, by hand and
not through a serialiser, so that the file carries the comments that explain each
key; `join` loads it, puts a ticket's directions in and writes it again.

Values go from the text into a table (`Toml.read`), the tables are merged, and the
structs are taken out of the merged one, with an error for a key that no struct
has. The numbers that the program types as non-zero are so here too, below the
width of their type.
-/

namespace Distlib

open Toml (Text Value Entries)

/-! ## The configuration -/

/-- A number above zero that fits in so many bits. -/
abbrev NonZero (bits : ℕ) : Type := {n : ℕ+ // (n : ℕ) < 2 ^ bits}

/-- Relay selection. -/
inductive RelayMode where
  /-- the default relays -/
  | default
  /-- no relays; direct connectivity only -/
  | disabled
  /-- the relays listed -/
  | custom
  deriving DecidableEq, Repr

/-- A path is a text, or bytes that are none. -/
inductive PathBuf where
  | utf8 : String → PathBuf
  | other : {bytes : ByteArray // ¬ bytes.IsValidUTF8} → PathBuf
  deriving DecidableEq

/-- How this node talks to the network. -/
structure NetConfig where
  bindAddrV4 : SocketAddr
  relayMode : RelayMode
  relayUrls : List String
  deriving DecidableEq

/-- The local control API. -/
structure ApiConfig where
  enabled : Bool
  bindAddr : SocketAddr
  maxUploadBytes : UInt64
  deriving DecidableEq

/-- Where a download goes when whoever asked for it named nowhere. -/
structure LibraryConfig where
  downloadDir : PathBuf
  deriving DecidableEq

/-- How this node tells the group it is online. -/
structure AvailabilityConfig where
  beatIntervalSecs : NonZero 32
  deriving DecidableEq

/-- The blobs this node keeps on disk. -/
structure StorageConfig where
  gcIntervalSecs : NonZero 32
  limitBytes : Option (NonZero 64)
  deriving DecidableEq

/-- How much this node moves over the network at once. -/
structure TransferConfig where
  maxFetches : NonZero 64
  maxDownloadRate : Option (NonZero 64)
  maxUploadRate : Option (NonZero 64)
  deriving DecidableEq

/-- A founding core member, with where to reach it. -/
structure CoreMember where
  member : MemberId
  name : String
  addrs : List SocketAddr
  relay : Option String
  deriving DecidableEq

/-- The group this node founds or belongs to. -/
structure ConsensusConfig where
  core : List CoreMember
  deriving DecidableEq

/-- The numbers are of the types the program gives them. -/
def GroupSettings.Fits (settings : GroupSettings) : Prop :=
  (settings.replicas : ℕ) < 2 ^ 8 ∧ settings.capBytes < 2 ^ 64 ∧
    (settings.weightStepBytes : ℕ) < 2 ^ 64 ∧ settings.minPledgeBytes < 2 ^ 64 ∧
    (settings.pendingExpiry : ℕ) < 2 ^ 64 ∧ settings.settleSecs < 2 ^ 32 ∧
    settings.maxSettleSecs < 2 ^ 32 ∧ settings.emergencyAfterSecs < 2 ^ 32 ∧
    settings.minTransferRate < 2 ^ 64 ∧ (settings.probeEverySecs : ℕ) < 2 ^ 32 ∧
    settings.failureWindowSecs < 2 ^ 32

instance (settings : GroupSettings) : Decidable settings.Fits := by
  unfold GroupSettings.Fits
  infer_instance

/-- The whole configuration of a node. -/
structure Config where
  net : NetConfig
  consensus : ConsensusConfig
  api : ApiConfig
  library : LibraryConfig
  availability : AvailabilityConfig
  storage : StorageConfig
  transfer : TransferConfig
  /-- the settings of a group this node founds -/
  group : Option {settings : GroupSettings // settings.Fits}
  deriving DecidableEq

instance : Inhabited NetConfig where
  default := { bindAddrV4 := .v4 0 0, relayMode := .default, relayUrls := [] }

instance : Inhabited ApiConfig where
  default := { enabled := true, bindAddr := .v4 0x7f000001 11280, maxUploadBytes := 16000000000 }

instance : Inhabited LibraryConfig where
  default := { downloadDir := .utf8 "downloads" }

instance : Inhabited AvailabilityConfig where
  default := { beatIntervalSecs := ⟨60, by decide⟩ }

instance : Inhabited StorageConfig where
  default := { gcIntervalSecs := ⟨10 * 60, by decide⟩, limitBytes := none }

instance : Inhabited TransferConfig where
  default := { maxFetches := ⟨10, by decide⟩, maxDownloadRate := none, maxUploadRate := none }

instance : Inhabited ConsensusConfig where
  default := { core := [] }

instance : Inhabited Config where
  default :=
    { net := default
      consensus := default
      api := default
      library := default
      availability := default
      storage := default
      transfer := default
      group := none }

/-! ## What other crates decide -/

/-- What the crates this one rests on decide, where neither the rules of TOML nor this
crate's own code do. -/
structure Crates where
  /-- a float or a time in a TOML text -/
  bare : Text → Option (Value × Text)
  /-- the fields of a struct that is written as an array -/
  positional : List Text → List Value → Option (Text → Option Value)
  /-- a relay mode that is not written as a string -/
  relayMode : Value → Option RelayMode
  /-- the text that bytes which are none are shown as -/
  lossy : ByteArray → String
  /-- the text of an IPv6 address -/
  ipv6 : Ipv6Text
  /-- the text of a public key -/
  printKey : MemberId → Text
  parseKey : Text → Option MemberId
  /-- what is written of a key is read back -/
  parse_printKey : ∀ member, parseKey (printKey member) = some member
  /-- it is letters and digits -/
  printKey_alphanum : ∀ member, (printKey member).all Char.isAlphanum = true

namespace Crates

variable (crates : Crates)

def printAddr (addr : SocketAddr) : Text := addr.print crates.ipv6

/-- `display` of a path. -/
def display : PathBuf → Text
  | .utf8 text => text.toList
  | .other bytes => (crates.lossy bytes).toList

end Crates

/-! ## Reading -/

def RelayMode.asStr : RelayMode → String
  | .default => "default"
  | .disabled => "disabled"
  | .custom => "custom"

/-- The fields of a struct, which has these and no others. -/
def fields (crates : Crates) (names : List String) : Value → Option (String → Option Value)
  | .table _ entries =>
    if entries.all (fun entry => names.contains (String.ofList entry.1)) then
      some fun name => entries.lookup name.toList
    else none
  | .array _ items =>
    (crates.positional (names.map String.toList) items).map fun get name => get name.toList
  | _ => none

/-- A field that is the default's when it is not there. -/
def orDefault {α : Type} (field : Option Value) (fallback : α) (extract : Value → Option α) :
    Option α :=
  match field with
  | none => some fallback
  | some value => extract value

def extractString : Value → Option String
  | .string text => some (String.ofList text)
  | _ => none

def extractBool : Value → Option Bool
  | .boolean b => some b
  | _ => none

def extractNat : Value → Option ℕ
  | .integer n => if 0 ≤ n then some n.toNat else none
  | _ => none

def extractPos (value : Value) : Option ℕ+ :=
  (extractNat value).bind fun n => if h : 0 < n then some ⟨n, h⟩ else none

def extractU64 (value : Value) : Option UInt64 :=
  (extractNat value).bind fun n => if n < 2 ^ 64 then some (UInt64.ofNat n) else none

def extractNonZero (bits : ℕ) (value : Value) : Option (NonZero bits) :=
  (extractPos value).bind fun n => if h : (n : ℕ) < 2 ^ bits then some ⟨n, h⟩ else none

def extractList {α : Type} (extract : Value → Option α) : Value → Option (List α)
  | .array _ items => items.mapM extract
  | _ => none

namespace Crates

variable (crates : Crates)

def extractAddr (value : Value) : Option SocketAddr :=
  (extractString value).bind fun text => SocketAddr.parse crates.ipv6 text.toList

def extractMember (value : Value) : Option MemberId :=
  (extractString value).bind fun text => crates.parseKey text.toList

def extractRelayMode : Value → Option RelayMode
  | .string text =>
    [RelayMode.default, .disabled, .custom].find? fun mode => mode.asStr.toList == text
  | value => crates.relayMode value

def extractNet (value : Value) : Option NetConfig := do
  let get ← fields crates ["bind_addr_v4", "relay_mode", "relay_urls"] value
  let bindAddrV4 ← orDefault (get "bind_addr_v4") (default : NetConfig).bindAddrV4
    crates.extractAddr
  let relayMode ← orDefault (get "relay_mode") (default : NetConfig).relayMode
    crates.extractRelayMode
  let relayUrls ← orDefault (get "relay_urls") (default : NetConfig).relayUrls
    (extractList extractString)
  return { bindAddrV4, relayMode, relayUrls }

def extractCoreMember (value : Value) : Option CoreMember := do
  let get ← fields crates ["member", "name", "addrs", "relay"] value
  let member ← (get "member").bind crates.extractMember
  let name ← orDefault (get "name") "" extractString
  let addrs ← orDefault (get "addrs") [] (extractList crates.extractAddr)
  let relay ← orDefault (get "relay") none fun value => (extractString value).map some
  return { member, name, addrs, relay }

def extractConsensus (value : Value) : Option ConsensusConfig := do
  let get ← fields crates ["core"] value
  let core ← orDefault (get "core") (default : ConsensusConfig).core
    (extractList crates.extractCoreMember)
  return { core }

def extractApi (value : Value) : Option ApiConfig := do
  let get ← fields crates ["enabled", "bind_addr", "max_upload_bytes"] value
  let enabled ← orDefault (get "enabled") (default : ApiConfig).enabled extractBool
  let bindAddr ← orDefault (get "bind_addr") (default : ApiConfig).bindAddr crates.extractAddr
  let maxUploadBytes ← orDefault (get "max_upload_bytes") (default : ApiConfig).maxUploadBytes
    extractU64
  return { enabled, bindAddr, maxUploadBytes }

def extractLibrary (value : Value) : Option LibraryConfig := do
  let get ← fields crates ["download_dir"] value
  let downloadDir ← orDefault (get "download_dir") (default : LibraryConfig).downloadDir
    fun value => (extractString value).map PathBuf.utf8
  return { downloadDir }

def extractAvailability (value : Value) : Option AvailabilityConfig := do
  let get ← fields crates ["beat_interval_secs"] value
  let beatIntervalSecs ← orDefault (get "beat_interval_secs")
    (default : AvailabilityConfig).beatIntervalSecs (extractNonZero 32)
  return { beatIntervalSecs }

def extractStorage (value : Value) : Option StorageConfig := do
  let get ← fields crates ["gc_interval_secs", "limit_bytes"] value
  let gcIntervalSecs ← orDefault (get "gc_interval_secs") (default : StorageConfig).gcIntervalSecs
    (extractNonZero 32)
  let limitBytes ← orDefault (get "limit_bytes") (default : StorageConfig).limitBytes
    fun value => (extractNonZero 64 value).map some
  return { gcIntervalSecs, limitBytes }

def extractTransfer (value : Value) : Option TransferConfig := do
  let get ← fields crates ["max_fetches", "max_download_rate", "max_upload_rate"] value
  let maxFetches ← orDefault (get "max_fetches") (default : TransferConfig).maxFetches
    (extractNonZero 64)
  let maxDownloadRate ← orDefault (get "max_download_rate")
    (default : TransferConfig).maxDownloadRate fun value => (extractNonZero 64 value).map some
  let maxUploadRate ← orDefault (get "max_upload_rate") (default : TransferConfig).maxUploadRate
    fun value => (extractNonZero 64 value).map some
  return { maxFetches, maxDownloadRate, maxUploadRate }

def extractGroup (value : Value) : Option {settings : GroupSettings // settings.Fits} := do
  let get ← fields crates ["replicas", "cap_bytes", "weight_step_bytes", "min_pledge_bytes",
    "pending_expiry", "settle_secs", "max_settle_secs", "emergency_after_secs",
    "min_transfer_rate", "probes", "probe_every_secs", "failure_window_secs"] value
  let replicas ← orDefault (get "replicas") (default : GroupSettings).replicas extractPos
  let capBytes ← orDefault (get "cap_bytes") (default : GroupSettings).capBytes extractNat
  let weightStepBytes ← orDefault (get "weight_step_bytes")
    (default : GroupSettings).weightStepBytes extractPos
  let minPledgeBytes ← orDefault (get "min_pledge_bytes") (default : GroupSettings).minPledgeBytes
    extractNat
  let pendingExpiry ← orDefault (get "pending_expiry") (default : GroupSettings).pendingExpiry
    extractPos
  let settleSecs ← orDefault (get "settle_secs") (default : GroupSettings).settleSecs extractNat
  let maxSettleSecs ← orDefault (get "max_settle_secs") (default : GroupSettings).maxSettleSecs
    extractNat
  let emergencyAfterSecs ← orDefault (get "emergency_after_secs")
    (default : GroupSettings).emergencyAfterSecs extractNat
  let minTransferRate ← orDefault (get "min_transfer_rate")
    (default : GroupSettings).minTransferRate extractNat
  let probes ← orDefault (get "probes") (default : GroupSettings).probes extractBool
  let probeEverySecs ← orDefault (get "probe_every_secs") (default : GroupSettings).probeEverySecs
    extractPos
  let failureWindowSecs ← orDefault (get "failure_window_secs")
    (default : GroupSettings).failureWindowSecs extractNat
  let settings : GroupSettings :=
    { replicas, capBytes, weightStepBytes, minPledgeBytes, pendingExpiry, settleSecs,
      maxSettleSecs, emergencyAfterSecs, minTransferRate, probes, probeEverySecs,
      failureWindowSecs }
  if h : settings.Fits then some ⟨settings, h⟩ else none

/-- The configuration a table holds. -/
def extract (value : Value) : Option Config := do
  let get ← fields crates ["net", "consensus", "api", "library", "availability", "storage",
    "transfer", "group"] value
  let net ← orDefault (get "net") default crates.extractNet
  let consensus ← orDefault (get "consensus") default crates.extractConsensus
  let api ← orDefault (get "api") default crates.extractApi
  let library ← orDefault (get "library") default crates.extractLibrary
  let availability ← orDefault (get "availability") default crates.extractAvailability
  let storage ← orDefault (get "storage") default crates.extractStorage
  let transfer ← orDefault (get "transfer") default crates.extractTransfer
  let group ← orDefault (get "group") none fun value => (crates.extractGroup value).map some
  return { net, consensus, api, library, availability, storage, transfer, group }

end Crates

/-! ## The layers -/

mutual

/-- A value under another: of two tables the keys of both, of anything else the upper one. -/
def mergeValue : Value → Value → Value
  | .table made old, .table _ new => .table made (mergeEntries old new)
  | _, new => new

def mergeEntries : Entries → Entries → Entries
  | [], new => new
  | (k, v) :: old, new =>
    match new.lookup k with
    | none => (k, v) :: mergeEntries old new
    | some w => (k, mergeValue v w) :: mergeEntries old (new.filter fun entry => entry.1 != k)

end

/-- A table of the defaults. -/
def tableOf (entries : List (String × Value)) : Value :=
  .table .header (entries.map fun entry => (entry.1.toList, entry.2))

/-- The default configuration as a table; what is absent by default is not in it. -/
def Crates.defaults (crates : Crates) : Entries :=
  let config : Config := default
  [("net".toList, tableOf
      [("bind_addr_v4", .string (crates.printAddr config.net.bindAddrV4)),
        ("relay_mode", .string config.net.relayMode.asStr.toList),
        ("relay_urls", .array false [])]),
    ("consensus".toList, tableOf [("core", .array false [])]),
    ("api".toList, tableOf
      [("enabled", .boolean config.api.enabled),
        ("bind_addr", .string (crates.printAddr config.api.bindAddr)),
        ("max_upload_bytes", .integer config.api.maxUploadBytes.toNat)]),
    ("library".toList, tableOf
      [("download_dir", .string (crates.display config.library.downloadDir))]),
    ("availability".toList, tableOf
      [("beat_interval_secs", .integer (config.availability.beatIntervalSecs.1 : ℕ))]),
    ("storage".toList, tableOf
      [("gc_interval_secs", .integer (config.storage.gcIntervalSecs.1 : ℕ))]),
    ("transfer".toList, tableOf
      [("max_fetches", .integer (config.transfer.maxFetches.1 : ℕ))])]

/-- Why a configuration is not loaded. -/
inductive ConfigError where
  /-- the one key that is resolved before the file is found -/
  | dataDirInConfig
  /-- the file or the environment is not what a configuration may be -/
  | figment
  deriving DecidableEq

/-- Loads the configuration whose file holds a text, or is missing, under what the
environment overrides. -/
def load (crates : Crates) (file : Option Text) (env : Entries) : Except ConfigError Config :=
  let read := (file.map (Toml.read crates.bare)).getD (some [])
  if (read.bind fun entries => entries.lookup "data_dir".toList).isSome then .error .dataDirInConfig
  else
    match read with
    | none => .error .figment
    | some entries =>
      match crates.extract (.table .header
          (mergeEntries (mergeEntries crates.defaults entries) env)) with
      | some config => .ok config
      | none => .error .figment

/-! ## Writing

The starter file line by line, its comments first and then the lines between them. -/

/-- Lines that are the same whatever the configuration is. -/
def fixed (lines : List String) : List Text := lines.map String.toList

/-- `[name]`. -/
def heading (name : String) : List Text := [Toml.headed name.toList]

/-- `key = value`. -/
def set (key : String) (value : Text) : List Text := [Toml.setting key.toList value]

def preamble : List Text := fixed
  ["# distlib configuration.",
    "#",
    "# Any key can be overridden by an environment variable: prefix with",
    "# DISTLIB_ and separate nested keys with a double underscore, e.g.",
    "# DISTLIB_NET__BIND_ADDR_V4=0.0.0.0:11204",
    "#",
    "# The data directory is not configured here — it is where this file",
    "# lives. Use --data-dir or DISTLIB_DATA_DIR.",
    ""]

def aboutBindAddrV4 : List Text := fixed
  ["# Local socket to bind; port 0 lets the OS choose.",
    "#",
    "# Pin a port on a core node. Founding records this node's address in",
    "# the log, and an OS-chosen port is different after every restart."]

def aboutRelayMode : List Text := fixed
  ["", "# \"default\" (n0 relays), \"disabled\", or \"custom\" with relay_urls below."]

def aboutCore : List Text := fixed
  ["# The core group: the members who vote on the membership log. If this",
    "# node is one of them it votes; if not, it follows them. Everything",
    "# else about membership comes from the log itself — this is the one",
    "# thing that cannot, because reaching the log means connecting to",
    "# these nodes first.",
    "#",
    "# `distlib join <ticket>` fills this in for a node joining a group",
    "# that already exists.",
    "#",
    "# Run `distlib whoami` on each founder; it prints the line to put",
    "# here. Every founder needs the same list.",
    "#",
    "# Leave it empty to found a group with this node alone:",
    "#",
    "#   distlib run --found-group",
    "#",
    "# To found with others, list every founder here — the same list in",
    "# every founder's config — and have one of them run --found-group.",
    "# `addrs` is required unless relays are enabled and can find them.",
    "#",
    "#   core = [",
    "#     \x7b member = \"<their id>\", name = \"alice\", addrs = [\"192.168.1.10:11204\"] \x7d,",
    "#     \x7b member = \"<your id>\", name = \"bob\", addrs = [\"192.168.1.11:11204\"] \x7d,",
    "#   ]"]

def aboutApi : List Text := fixed
  ["# The local JSON-RPC API: what `distlib admit`, `distlib expel` and",
    "# the web UI talk to. The token in <data-dir>/api.token is the only",
    "# thing guarding it, and there is no TLS yet — so if you move this",
    "# off 127.0.0.1, to reach a node on a server or in a container, put",
    "# a reverse proxy in front of it."]

def aboutMaxUpload : List Text := fixed
  ["",
    "# The largest file the web UI may upload at once, in bytes. Files",
    "# added by path with `distlib add` are not limited."]

def aboutDownloadDir : List Text := fixed
  ["# Where a download started from the web UI writes its files, created",
    "# when first needed. Relative to the data directory, or absolute.",
    "# `distlib download` writes to the working directory, or --dest."]

def aboutBeatInterval : List Text := fixed
  ["# Seconds between the heartbeats that tell the group this node is",
    "# online, stretched in groups of more than fifty, to at most 20",
    "# minutes. Peers count the node offline after three missed."]

def aboutGcInterval : List Text := fixed
  ["# Seconds between passes that delete the blobs nothing keeps any",
    "# more. What you added, and what you downloaded, is kept."]

def aboutLimit : List Text := fixed
  ["",
    "# The most disk space, in bytes, distlib may use on this machine:",
    "# what you added, what you keep for the group and the cache, each",
    "# blob counted once. Must be above your pledge. No limit when unset."]

def aboutMaxFetches : List Text := fixed
  ["# How many items this node fetches at once for the group's custody."]

def aboutMaxDownloadRate : List Text := fixed
  ["",
    "# The most this node downloads, in bytes per second, all downloads",
    "# together. Never below the group's min_transfer_rate, which a lower",
    "# value is raised to. No limit when unset."]

def aboutMaxUploadRate : List Text := fixed
  ["",
    "# The most this node serves to the group, in bytes per second, to",
    "# everyone at once. Never below min_transfer_rate either. No limit",
    "# when unset. A sustained rate, not a hard cap: many small requests",
    "# at once can go over it."]

def aboutGroup : List Text := fixed
  ["# The settings of a group this node founds, written into the founding",
    "# entry by `distlib run --found-group` and fixed from then on: a node",
    "# that joins a group, or has founded one already, ignores them."]

/-- `key = value`, or `example` commented out when there is no value. -/
def optionalSetting (key : String) (value : Option (NonZero 64)) (sample : ℕ) : List Text :=
  match value with
  | some value => set key (digits value.1)
  | none => ["# ".toList ++ Toml.setting key.toList (digits sample)]

/-- The `[group]` section: the group's values, or the defaults commented out. -/
def groupSection (group : Option {settings : GroupSettings // settings.Fits}) : List Text :=
  let settings : GroupSettings := (group.map Subtype.val).getD default
  let prefixed : Text → Text := fun line => if group.isSome then line else "# ".toList ++ line
  let values : List Text :=
    set "replicas" (digits settings.replicas) ++
    set "cap_bytes" (digits settings.capBytes) ++
    set "weight_step_bytes" (digits settings.weightStepBytes) ++
    set "min_pledge_bytes" (digits settings.minPledgeBytes) ++
    set "pending_expiry" (digits settings.pendingExpiry) ++
    set "settle_secs" (digits settings.settleSecs) ++
    set "max_settle_secs" (digits settings.maxSettleSecs) ++
    set "emergency_after_secs" (digits settings.emergencyAfterSecs) ++
    set "min_transfer_rate" (digits settings.minTransferRate) ++
    set "probes" (Toml.ofBool settings.probes) ++
    set "probe_every_secs" (digits settings.probeEverySecs) ++
    set "failure_window_secs" (digits settings.failureWindowSecs)
  aboutGroup ++ (heading "group" ++ values).map prefixed

/-- Strings between quotes, as they are, with commas between them. -/
def quoted (values : List Text) : Text := Toml.bracketed (values.map Toml.quote)

/-- This member as an inline table. -/
def CoreMember.toTomlInline (crates : Crates) (member : CoreMember) : Text :=
  Toml.braced
    (set "member" (Toml.quote (crates.printKey member.member)) ++
      set "name" (Toml.quote member.name.toList) ++
      set "addrs" (quoted (member.addrs.map crates.printAddr)) ++
      (match member.relay with
        | some relay => set "relay" (Toml.quote relay.toList)
        | none => []))

/-- The lines of a starter file. -/
def Config.starterLines (crates : Crates) (config : Config) : List Text :=
  preamble ++
  heading "net" ++ aboutBindAddrV4 ++
  set "bind_addr_v4" (Toml.quote (crates.printAddr config.net.bindAddrV4)) ++
  aboutRelayMode ++
  set "relay_mode" (Toml.quote config.net.relayMode.asStr.toList) ++
  set "relay_urls" (quoted (config.net.relayUrls.map String.toList)) ++
  fixed [""] ++
  heading "consensus" ++ aboutCore ++
  set "core" (Toml.bracketed (config.consensus.core.map (CoreMember.toTomlInline crates))) ++
  fixed [""] ++
  heading "api" ++ aboutApi ++
  set "enabled" (Toml.ofBool config.api.enabled) ++
  set "bind_addr" (Toml.quote (crates.printAddr config.api.bindAddr)) ++
  aboutMaxUpload ++
  set "max_upload_bytes" (digits config.api.maxUploadBytes.toNat) ++
  fixed [""] ++
  heading "library" ++ aboutDownloadDir ++
  set "download_dir" (Toml.quote (crates.display config.library.downloadDir)) ++
  fixed [""] ++
  heading "availability" ++ aboutBeatInterval ++
  set "beat_interval_secs" (digits config.availability.beatIntervalSecs.1) ++
  fixed [""] ++
  heading "storage" ++ aboutGcInterval ++
  set "gc_interval_secs" (digits config.storage.gcIntervalSecs.1) ++
  aboutLimit ++
  optionalSetting "limit_bytes" config.storage.limitBytes 100000000000 ++
  fixed [""] ++
  heading "transfer" ++ aboutMaxFetches ++
  set "max_fetches" (digits config.transfer.maxFetches.1) ++
  aboutMaxDownloadRate ++
  optionalSetting "max_download_rate" config.transfer.maxDownloadRate 10000000 ++
  aboutMaxUploadRate ++
  optionalSetting "max_upload_rate" config.transfer.maxUploadRate 10000000 ++
  fixed [""] ++
  groupSection config.group

/-- Renders a starter config file. -/
def Config.toStarterToml (crates : Crates) (config : Config) : Text :=
  Toml.inLines (config.starterLines crates)

/-! ## Joining a group -/

namespace SocketAddr

/-- The place of an address in the order of addresses. -/
def rank : SocketAddr → ℕ
  | .v4 ip port => ip.toNat * 2 ^ 16 + port.toNat
  | .v6 ip port flow scope =>
    2 ^ 48 + (((ip.toNat * 2 ^ 16 + port.toNat) * 2 ^ 32 + flow.toNat) * 2 ^ 32 + scope.toNat)

theorem rank_injective : Function.Injective rank := by
  rintro (⟨ip, port⟩ | ⟨ip, port, flow, scope⟩) (⟨ip', port'⟩ | ⟨ip', port', flow', scope'⟩) h
  all_goals
    simp only [rank] at h
    have hip := ip.isLt
    have hip' := ip'.isLt
    have hport := port.toNat_lt
    have hport' := port'.toNat_lt
  · rw [BitVec.eq_of_toNat_eq (by omega : ip.toNat = ip'.toNat),
      UInt16.toNat_inj.mp (by omega : port.toNat = port'.toNat)]
  · omega
  · omega
  · have hflow := flow.toNat_lt
    have hflow' := flow'.toNat_lt
    have hscope := scope.toNat_lt
    have hscope' := scope'.toNat_lt
    rw [BitVec.eq_of_toNat_eq (by omega : ip.toNat = ip'.toNat),
      UInt16.toNat_inj.mp (by omega : port.toNat = port'.toNat),
      UInt32.toNat_inj.mp (by omega : flow.toNat = flow'.toNat),
      UInt32.toNat_inj.mp (by omega : scope.toNat = scope'.toNat)]

/-- One address comes before another: IPv4 before IPv6, then by what they are made of. -/
def Before (a b : SocketAddr) : Prop := a.rank ≤ b.rank

instance : DecidableRel Before := fun a b => inferInstanceAs (Decidable (a.rank ≤ b.rank))
instance : IsTrans SocketAddr Before := ⟨fun _ _ _ => le_trans⟩
instance : Std.Antisymm Before := ⟨fun _ _ h h' => rank_injective (le_antisymm h h')⟩
instance : Std.Total Before := ⟨fun a b => le_total a.rank b.rank⟩

end SocketAddr

/-- Directions to a group. -/
structure Ticket where
  group : GroupId
  /-- the core nodes, with somewhere to reach each -/
  core : List (MemberId × NodeAddr)
  relayMode : RelayMode
  relayUrls : List String

/-- A configuration with a ticket's directions in it. -/
def Config.joining (config : Config) (ticket : Ticket) : Config :=
  { config with
    net := { config.net with relayMode := ticket.relayMode, relayUrls := ticket.relayUrls }
    consensus :=
      { core := ticket.core.map fun entry =>
          -- the log carries the names
          { member := entry.1
            name := ""
            addrs := entry.2.direct.sort SocketAddr.Before
            relay := entry.2.relay } } }

/-- Why a node does not join. -/
inductive JoinError where
  /-- its configuration is not loaded -/
  | config : ConfigError → JoinError
  /-- its store is there and is not opened -/
  | store
  /-- it belongs to another group -/
  | otherGroup : GroupId → JoinError
  deriving DecidableEq

/-- The file that `join` writes, given the one that is there, the environment and the
group of the stored membership. -/
def join (crates : Crates) (file : Option Text) (env : Entries)
    (stored : Except Unit (Option GroupId)) (ticket : Ticket) : Except JoinError Text :=
  match load crates file env, stored with
  | .error error, _ => .error (.config error)
  | .ok _, .error _ => .error .store
  | .ok config, .ok existing =>
    match existing.filter (· ≠ ticket.group) with
    | some group => .error (.otherGroup group)
    | none => .ok ((config.joining ticket).toStarterToml crates)

end Distlib
