import Kdb.Lib.Machine
import Kdb.Lib.PointerChain
import Kdb.Lib.Carry
import Kdb.Lib.Entries
import Kdb.Lib.LevelOrder
import Kdb.Lib.MerkleStack
import Kdb.Lib.Script
import Kdb.Embed.CommitLog
import Kdb.Embed.GroupAtomicity
import Kdb.Embed.DeltaReplay
import Kdb.Embed.EpochReuse
import Kdb.Embed.Checkpoint
import Kdb.Storage.AttachStore
import Kdb.Storage.TreeStore
import Kdb.Storage.TreeObjects
import Kdb.Storage.AttachRestart
import Kdb.Storage.DeltaScan
import Kdb.Storage.SortedTable
import Kdb.Storage.BlobStore
import Kdb.Storage.LsmOrder
import Kdb.Storage.Memtable
import Kdb.Storage.WalCodec
import Kdb.Storage.Wal
import Kdb.Storage.GroupCommitter
import Kdb.Storage.AttachUpload
import Kdb.Storage.AttachReader
import Kdb.Storage.SegmentState
import Kdb.Document.Json
import Kdb.Document.Commit
import Kdb.Document.AttachmentHash
import Kdb.Document.AttachmentTable
import Kdb.Document.DocumentTree
import Kdb.Document.OrderedWalk
import Kdb.Document.DocumentProof
import Kdb.Dag.CommitDag
import Kdb.Dag.Generations
import Kdb.Dag.MergeBases
import Kdb.Dag.Walks
import Kdb.Transaction.Types
import Kdb.Transaction.UniqueKeys
import Kdb.Transaction.Engine
import Kdb.Transaction.EngineSpec
import Kdb.Transaction.Trees
import Kdb.Transaction.Registry
import Kdb.Transaction.WritePhase
import Kdb.Transaction.BranchMerge
import Kdb.Transaction.LockManager
import Kdb.Server.WriteGate
import Kdb.Server.Retry
import Kdb.Server.LogOrder
import Kdb.Server.IndexProvider
import Kdb.Server.SnapshotCut
import Kdb.Server.WriteBack
import Kdb.Server.ImmediateInsert
import Kdb.Schema.Migration
import Kdb.Sql.Predicate
import Kdb.Index.KeyedStore
import Kdb.Sql.AccessPath
import Kdb.Lib.RankedGraph
import Kdb.Peersync.FastForward
import Kdb.Peersync.History
import Kdb.Peersync.Append
import Kdb.Peersync.ResolutionChain
import Kdb.Peersync.Merge
import Kdb.Peersync.Symmetry
import Kdb.Peersync.SyncPlan
import Kdb.Peersync.JoinConfluence
import Kdb.Peersync.AttachmentMerge
import Kdb.Peersync.MissingCursor
import Kdb.Peersync.MergeRun
import Kdb.Peersync.LastWrite
import Kdb.Peersync.FieldMap
