import EyaKV.Base.OrderedMap
import EyaKV.Base.Layers
import EyaKV.Base.Crash
import EyaKV.Base.Framing
import EyaKV.Base.Runs
import EyaKV.Base.Streams
import EyaKV.Base.Quorum
import EyaKV.Base.ReplicatedLog
import EyaKV.Base.IndexedLog
import EyaKV.Base.Locks
import EyaKV.Store.Value
import EyaKV.Store.MemTable
import EyaKV.Store.SSTable
import EyaKV.Store.Compaction
import EyaKV.Store.Directory
import EyaKV.Store.MergeCrash
import EyaKV.Store.Codec
import EyaKV.Store.Wal
import EyaKV.Store.WalRecovery
import EyaKV.Store.Storage
import EyaKV.Store.Layering
import EyaKV.Store.Refinement
import EyaKV.Store.Scan
import EyaKV.Raft.LogArray
import EyaKV.Raft.LogDisk
import EyaKV.Raft.LogMutex
import EyaKV.Raft.LogRefinement
import EyaKV.Raft.LogRecovery
import EyaKV.Raft.Locking
import EyaKV.Raft.Node
import EyaKV.Raft.PersistentFile
import EyaKV.Raft.Cluster
import EyaKV.Raft.Votes
import EyaKV.Raft.Election
import EyaKV.Raft.Notification
import EyaKV.Raft.Terms
import EyaKV.Raft.Membership
import EyaKV.Raft.Joining
import EyaKV.Raft.Convergence
import EyaKV.Raft.Idle
import EyaKV.Raft.LogMatching
import EyaKV.Raft.Applying
import EyaKV.Store.Flushing
import EyaKV.Store.Operations
import EyaKV.Store.Commands
import EyaKV.Store.Replay
import EyaKV.Store.Actions
import EyaKV.Store.Recovery
import EyaKV.Store.LogRecords
import EyaKV.Store.Failures
import EyaKV.Store.Locations
import EyaKV.Base.SortedList
import EyaKV.Store.ZSets
import EyaKV.Store.ZSetCoherence
import EyaKV.Base.Blocks
import EyaKV.Common.LruCache
import EyaKV.Common.LruIndex
import EyaKV.Common.SeqLock
import EyaKV.Common.ThreadPool
import EyaKV.Store.ValueCodec
import EyaKV.Store.SSTableFile
import EyaKV.Store.SSTableRoundTrip
import EyaKV.Raft.Replies
import EyaKV.Raft.CommandKinds
import EyaKV.Raft.Deduplication
import EyaKV.Base.Recency
import EyaKV.Base.Reading
import EyaKV.Base.Levels
import EyaKV.Store.SkipListLinks
import EyaKV.Store.ValueRoundTrip
import EyaKV.Common.Wire
import EyaKV.Base.Layouts
import EyaKV.Network.Protocol
import EyaKV.Raft.Messages
import EyaKV.Network.Frames
import EyaKV.Network.Reassembly
import EyaKV.Network.Receiving
import EyaKV.Network.Connections
import EyaKV.Store.Overloads
import EyaKV.Store.Effects
import EyaKV.Store.Draining
import EyaKV.Store.Opening
import EyaKV.Store.Checkpoint
import EyaKV.Store.Bookkeeping
import EyaKV.Store.SnapshotCache
import EyaKV.Store.CheckpointRoundTrip
import EyaKV.Base.Carriage
import EyaKV.Network.Sending
import EyaKV.Network.Authentication
import EyaKV.Network.AuthMonitor
import EyaKV.Raft.SnapshotTransfer
import EyaKV.Raft.Appending
import EyaKV.Raft.SnapshotBoundary
import EyaKV.Raft.Truncation
import EyaKV.Raft.BackOff
import EyaKV.Raft.Freshness
import EyaKV.Raft.Submitting
import EyaKV.Raft.Batching
import EyaKV.Raft.BatchSequence
import EyaKV.Raft.BatchFutures
import EyaKV.Raft.BatchLimits
import EyaKV.Base.LinkedLevels
import EyaKV.Common.SkipListRuns
import EyaKV.Store.Shards
import EyaKV.Common.SkipListRanges
import EyaKV.Store.ScoreRanges
import EyaKV.Store.Expiry
import EyaKV.Base.Descent
import EyaKV.Store.Termination
import EyaKV.Raft.LogFailures
import EyaKV.Store.BloomFilters
import EyaKV.Base.Positions
import EyaKV.Base.Signed
import EyaKV.Store.IndexRanges
import EyaKV.Base.Words
import EyaKV.Raft.Splitting
import EyaKV.Base.ShiftRegister
import EyaKV.Raft.LogChecksum
import EyaKV.Base.Sinking
import EyaKV.Store.Durability
import EyaKV.Store.ConcurrentReads
import EyaKV.Raft.Progress
import EyaKV.Raft.Acknowledging
import EyaKV.Raft.Completeness
import EyaKV.Raft.Agreement
