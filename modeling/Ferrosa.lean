import Ferrosa.Accord.CellOrder
import Ferrosa.Accord.Coordinator
import Ferrosa.Accord.FramedLog
import Ferrosa.Accord.HybridClock
import Ferrosa.Accord.ProposedTimestamps
import Ferrosa.Accord.ReadVotes
import Ferrosa.Accord.ShardQuorum
import Ferrosa.Cluster.BatchMemory
import Ferrosa.Cluster.HintQueue
import Ferrosa.Cluster.MerkleTree
import Ferrosa.Cluster.QuorumIntersection
import Ferrosa.Cluster.ReadReconciliation
import Ferrosa.Cluster.RepairConvergence
import Ferrosa.Cluster.RepairInitiators
import Ferrosa.Cluster.SingleNodeReads
import Ferrosa.CommitLog.Retirement
import Ferrosa.Cql.FrameStreaming
import Ferrosa.ObjectStore.FaithfulEdits
import Ferrosa.Postgres.StableSnapshots
import Ferrosa.Raft.LogContiguity
import Ferrosa.Raft.LogDurability
import Ferrosa.Raft.TopologyRecovery
import Ferrosa.Sched.SlotAccounting
import Ferrosa.Sql.NumericEquality
import Ferrosa.Storage.CompactionTransparency
import Ferrosa.Storage.DeletionSuppression
import Ferrosa.Storage.DisjointRuns
import Ferrosa.Storage.FragmentEquivalence
import Ferrosa.Storage.LastWriteWins
import Ferrosa.Storage.PurgeDetection
import Ferrosa.Storage.SpillingDedup
import Ferrosa.Storage.StableExternalSort
import Ferrosa.Storage.TableReclaim
