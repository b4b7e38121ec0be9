import KvStore.Transition.Guarded
import KvStore.Transition.Reach
import KvStore.FileSystem.Directory
import KvStore.FileSystem.Replace
import KvStore.Consensus.Replication
import KvStore.Consensus.Safety
import KvStore.Consensus.Histories
import KvStore.Journal.Expiring
import KvStore.Journal.Replay
import KvStore.Journal.Reexecution
import KvStore.Pattern.Glob
import KvStore.Framing.Stream
import KvStore.Framing.Utf8
import KvStore.Framing.JsonText
import KvStore.Framing.Json
import KvStore.Framing.JsonRecord
import KvStore.Storage.Engine
import KvStore.Storage.MemStore
import KvStore.Storage.Replicas
import KvStore.Storage.Wal
import KvStore.Storage.DiskStore
import KvStore.Storage.Snapshot
import KvStore.Storage.Recovery
import KvStore.Storage.TornTail
import KvStore.Storage.Execution
import KvStore.Storage.GroupCommit
import KvStore.Storage.CompactionCrash
import KvStore.Storage.FailedWrites
import KvStore.Storage.RestoreSnapshot
import KvStore.Storage.SnapshotVersions
import KvStore.Storage.EncryptedAppend
import KvStore.Storage.EncryptionMode
import KvStore.Storage.Scan
import KvStore.Storage.MatchGlob
import KvStore.Storage.FakeEngine
import KvStore.Storage.Sweeps
import KvStore.Storage.Concurrent
import KvStore.Storage.Shutdown
import KvStore.Storage.Atomic
import KvStore.Storage.Linearizable
import KvStore.Storage.Answers
import KvStore.Api.Handlers
import KvStore.Api.ReadableLog
import KvStore.Api.ScanPages
import KvStore.Raft.Types
import KvStore.Raft.Handlers
import KvStore.Raft.Encoding
import KvStore.Storage.TextStores
import KvStore.Storage.CleanClose
import KvStore.Storage.DataDirectory
import KvStore.Raft.Process
import KvStore.Raft.Cluster
import KvStore.Raft.Inversion
import KvStore.Raft.Durable
import KvStore.Raft.Votes
import KvStore.Raft.ElectionSafety
import KvStore.Raft.FullLog
import KvStore.Raft.CommitRule
import KvStore.Raft.Refinement
import KvStore.Raft.Simulation
import KvStore.Raft.LogSections
import KvStore.Raft.FollowerSections
import KvStore.Raft.StateMachineSafety
import KvStore.Raft.AcknowledgedWrites
import KvStore.Raft.NodeRuns
import KvStore.Raft.UnreadableState
import KvStore.Raft.Compaction
import KvStore.Raft.DurableAcks
import KvStore.Raft.MatchIndex
import KvStore.Raft.CommitDurability
import KvStore.Raft.Reordering
import KvStore.Raft.LogMoves
import KvStore.Raft.LogMatching
import KvStore.Raft.IndexChain
import KvStore.Raft.ElectionQuorum
import KvStore.Raft.LeaderLease
import KvStore.Raft.LeaderMessages
import KvStore.Raft.CommittedLog
import KvStore.Raft.AppendEffect
import KvStore.Raft.Executions
import KvStore.Raft.InFlight
import KvStore.Raft.ReplicateToPeer
import KvStore.Raft.CatchUp
import KvStore.Raft.Partition
import KvStore.Raft.NodeAlone
import KvStore.Raft.MajorityProgress
import KvStore.Machine.Slice
import KvStore.Raft.MachineHandlers
import KvStore.Raft.HostileRequests
import KvStore.Chaos.Oracles
import KvStore.Linearizability.Register
import KvStore.Linearizability.Checker
import KvStore.Server.Host
import KvStore.Server.Server
import KvStore.Server.Files
import KvStore.Server.ExactlyOnce
import KvStore.Server.Serializability
import KvStore.Server.SnapshotLabels
import KvStore.Server.Waiters
import KvStore.Server.LeaderReads
import KvStore.Server.FailedRestore
