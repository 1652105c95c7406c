import Slog.Common.Types
import Slog.Library.ReaderWriter
import Slog.Library.Countdown
import Slog.Library.Folds
import Slog.Library.Frontier
import Slog.Common.AsyncLog
import Slog.Common.BatchLog
import Slog.LogManager.LocalLog
import Slog.Scheduler.DDRLockManager
import Slog.Scheduler.RMALockManager
import Slog.Scheduler.LockSpec
import Slog.Scheduler.DDRSimulation
import Slog.Scheduler.DDRRefinement
import Slog.Scheduler.RMASimulation
import Slog.Scheduler.RMARefinement
import Slog.Scheduler.Deliveries
import Slog.Common.ProtoUtils
import Slog.Sequencer.Batcher
import Slog.Sequencer.Batching
import Slog.Scheduler.Equivalence
import Slog.Scheduler.RMASafety
import Slog.Scheduler.TxnHolder
import Slog.Scheduler.PerKeyRemasterManager
import Slog.Scheduler.DeadlockResolver
import Slog.Paxos.SimulatedMultiPaxos
import Slog.LogManager.Replication
import Slog.Janus.Quorum
import Slog.Janus.Acceptor
import Slog.Janus.Coordinator
import Slog.Movr.Placement
import Slog.Janus.Horizon
import Slog.Janus.Tarjan
import Slog.Janus.Scheduler
import Slog.Common.StringUtils
import Slog.Library.Buckets
import Slog.Common.ConcurrentHashMap
import Slog.Execution.KeyValue
import Slog.Library.LittleEndian
import Slog.Tpcc.Table
import Slog.Tpcc.StorageAdapter
import Slog.Tpcc.Keys
import Slog.Tpcc.RoundTrip
import Slog.Orderer.MultiHomeOrderer
import Slog.Orderer.GlobalOrder
import Slog.Library.Lookup
import Slog.Execution.KeyOrder
import Slog.Scheduler.Worker
import Slog.Scheduler.RemoteReads
