import Distlib.Lib.OrdMap
import Distlib.Lib.IndexedLog
import Distlib.Lib.StoredLog
import Distlib.Lib.Ranking
import Distlib.Lib.GuardedRun
import Distlib.Lib.LastOf
import Distlib.Lib.Hex
import Distlib.Lib.FixedWidth
import Distlib.Lib.Double
import Distlib.Lib.FileSystem
import Distlib.Lib.Overflow
import Distlib.Lib.Since
import Distlib.Lib.Looping
import Distlib.Lib.Toml
import Distlib.Lib.TomlPlain
import Distlib.Lib.TomlTables
import Distlib.Lib.TomlWritten
import Distlib.Lib.TomlLines
import Distlib.Lib.TomlDocument
import Distlib.Core.Id
import Distlib.Core.GroupSettings
import Distlib.Core.Custody
import Distlib.Core.Disruption
import Distlib.Core.Catalogue
import Distlib.Core.Community
import Distlib.Core.Keys
import Distlib.Core.Entries
import Distlib.Core.Uppercase
import Distlib.Core.AddrText
import Distlib.Core.Config
import Distlib.Core.Starter
import Distlib.Core.Reloads
import Distlib.Consensus.Event
import Distlib.Consensus.State
import Distlib.Consensus.Step
import Distlib.Consensus.Run
import Distlib.Consensus.Quorum
import Distlib.Consensus.Pending
import Distlib.Consensus.Supersede
import Distlib.Consensus.Protocol
import Distlib.Consensus.Replay
import Distlib.Consensus.LogStore
import Distlib.Consensus.RaftLog
import Distlib.Consensus.StateMachine
import Distlib.Consensus.Memberlog
import Distlib.Consensus.Follower
import Distlib.Consensus.FailedStore
import Distlib.Consensus.Roles
import Distlib.Consensus.Snapshot
import Distlib.Consensus.Enforced
import Distlib.Consensus.CoreGroup
import Distlib.Consensus.GroupLog
import Distlib.Consensus.Outcome
import Distlib.Consensus.Propose
import Distlib.Consensus.Promise
import Distlib.Consensus.Landed
import Distlib.Consensus.Short
import Distlib.Consensus.Outlive
import Distlib.Consensus.Learners
import Distlib.Consensus.Refused
import Distlib.Consensus.Asking
import Distlib.Consensus.Survives
import Distlib.Net.Directory
import Distlib.Net.Hooks
import Distlib.Net.Pacer
import Distlib.Net.Refusals
import Distlib.Net.Newest
import Distlib.Consensus.Announcing
import Distlib.Consensus.Position
import Distlib.Consensus.Predecessors
import Distlib.Consensus.Hints
import Distlib.Sync.Statement
import Distlib.Sync.Holders
import Distlib.Sync.Beats
import Distlib.Sync.Online
import Distlib.Sync.Beating
import Distlib.Sync.Bookkeeping
import Distlib.Sync.Complete
import Distlib.Sync.Reported
import Distlib.Sync.BaseList
import Distlib.Sync.Offers
import Distlib.Sync.Document
import Distlib.Sync.Changes
import Distlib.Sync.Missing
import Distlib.Custody.Keeping
import Distlib.Custody.TagNames
import Distlib.Custody.Pins
import Distlib.Custody.Fetches
import Distlib.Custody.Release
import Distlib.Custody.KeptBlobs
import Distlib.Custody.Storage
import Distlib.Custody.Recheck
import Distlib.Custody.View
import Distlib.Custody.Evictions
import Distlib.Custody.Freed
import Distlib.Custody.Arithmetic
import Distlib.Custody.Unneeded
import Distlib.Custody.Room
import Distlib.Custody.Honoured
import Distlib.Custody.Dated
import Distlib.Custody.Probes
import Distlib.Custody.Alone
import Distlib.Custody.Emergency
import Distlib.Custody.Settling
import Distlib.Custody.Suspects
import Distlib.Store.Projection
import Distlib.Store.Replay
import Distlib.Store.OwnWords
import Distlib.Store.Reads
import Distlib.Store.Batches
import Distlib.Store.InStep
import Distlib.Store.Sizes
import Distlib.Api.Applied
import Distlib.Api.CoreDelta
import Distlib.Api.Tasks
import Distlib.Api.Endings
import Distlib.Api.Downloads
import Distlib.Api.Overwrites
