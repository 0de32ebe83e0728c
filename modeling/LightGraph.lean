import LightGraph.Lib.LittleEndian
import LightGraph.Lib.Frames
import LightGraph.Lib.FiniteMap
import LightGraph.Lib.Machine
import LightGraph.Lib.Serial
import LightGraph.Lib.Checkpoint
import LightGraph.Lib.Utf8
import LightGraph.Lib.Codec
import LightGraph.Lib.Json
import LightGraph.Lib.Chain
import LightGraph.Lib.Threads
import LightGraph.Lib.BufWriter
import LightGraph.Lib.Regroup
import LightGraph.Lib.Scanner
import LightGraph.Lib.Progress
import LightGraph.Lib.Linear
import LightGraph.Lib.PartialSort
import LightGraph.Lib.Binary32
import LightGraph.Lib.Best
import LightGraph.Storage.Types
import LightGraph.Storage.Bincode
import LightGraph.Storage.WalThread
import LightGraph.Storage.StoreLog
import LightGraph.Storage.RecordStore
import LightGraph.Storage.NodeStore
import LightGraph.Storage.EdgeStore
import LightGraph.Storage.Adjacency
import LightGraph.Storage.PropStore
import LightGraph.Storage.Consistency
import LightGraph.Snapshot
import LightGraph.SnapshotFormat
import LightGraph.SnapshotFaults
import LightGraph.Storage.StoreThreads
import LightGraph.Storage.PropThreads
import LightGraph.Storage.RowThreads
import LightGraph.Transaction.TxManager
import LightGraph.Transaction.Database
import LightGraph.Transaction.Maps
import LightGraph.DataDir
import LightGraph.Transaction.Commits
import LightGraph.Transaction.TicketLock
import LightGraph.Transaction.History
import LightGraph.Transaction.Sessions
import LightGraph.Proof.LogFormat
import LightGraph.Proof.LogGrammar
import LightGraph.Proof.StoreLog
import LightGraph.Proof.WalThread
import LightGraph.Proof.Recovery
import LightGraph.Wal
import LightGraph.WalFormat
import LightGraph.Proof.FreeList
import LightGraph.Proof.Crash
import LightGraph.Proof.WalWriter
import LightGraph.Proof.SnapshotCrash
import LightGraph.Proof.DatabaseLogs
import LightGraph.Proof.PropCells
import LightGraph.Proof.SnapshotRecovery
import LightGraph.Proof.Restart
import LightGraph.Proof.Atomicity
import LightGraph.Proof.TicketLock
import LightGraph.Proof.CommitOrder
import LightGraph.Proof.ReservedIds
import LightGraph.Proof.IdOwnership
import LightGraph.Proof.Compaction
import LightGraph.Proof.CompactedReads
import LightGraph.Proof.LogAgreement
import LightGraph.Proof.Visibility
import LightGraph.Proof.Repeatable
import LightGraph.Proof.Chains
import LightGraph.Proof.Adjacency
import LightGraph.Proof.Acyclic
import LightGraph.Proof.SnapshotTraversal
import LightGraph.Proof.LinkFailures
import LightGraph.Proof.SnapshotVersions
import LightGraph.Proof.CommittedEdges
import LightGraph.Proof.GroupedCommit
import LightGraph.Proof.CommitAnswers
import LightGraph.Proof.FinishOrder
import LightGraph.Proof.RowNumbers
import LightGraph.Proof.PropAgreement
import LightGraph.Proof.Caller
import LightGraph.Proof.ImmediateDurability
import LightGraph.Storage.WalFaults
import LightGraph.Proof.FlushFaults
import LightGraph.WalRetries
import LightGraph.Proof.WalRetries
import LightGraph.Proof.FirstCommitter
import LightGraph.Index.Property
import LightGraph.Index.Scorer
import LightGraph.Index.Fulltext
import LightGraph.Proof.Tokenizer
import LightGraph.Query.HybridSearch
import LightGraph.Query.Builder
import LightGraph.Proof.TextSearch
import LightGraph.Proof.Ranking
import LightGraph.Proof.HybridSearch
import LightGraph.Proof.Predicates
import LightGraph.Proof.Filters
import LightGraph.Proof.CellMap
import LightGraph.Proof.FreshRows
import LightGraph.Proof.SnapshotReplay
import LightGraph.Proof.SnapshotFaults
import LightGraph.Proof.WalStartup
import LightGraph.Proof.WalProgress
import LightGraph.Proof.TicketProgress
import LightGraph.Proof.Linearization
import LightGraph.Proof.StoreCounts
import LightGraph.Proof.ProcessCrash
import LightGraph.Proof.RowThreads
import LightGraph.Proof.TokenText
import LightGraph.Proof.UnlinkLog
import LightGraph.Proof.FaultySnapshots
import LightGraph.Proof.EdgeReads
import LightGraph.Proof.Scans
import LightGraph.Proof.Rewind
import LightGraph.Proof.DurableChains
import LightGraph.Proof.CrashChains
