import TailBench.Lib.Machine
import TailBench.Lib.Threads
import TailBench.Lib.Bytes
import TailBench.Lib.Memory
import TailBench.Lib.Decimal
import TailBench.Lib.Loops
import TailBench.Lib.Nibble
import TailBench.Lib.Ledger
import TailBench.Lib.Quantile
import TailBench.Lib.RoundRobin
import TailBench.Harness.Msgs
import TailBench.Harness.Helpers
import TailBench.Harness.Framing
import TailBench.Harness.Transfers
import TailBench.Harness.Dist
import TailBench.Harness.Client
import TailBench.Harness.RateSchedule
import TailBench.Harness.StartReq
import TailBench.Harness.NetworkedClient
import TailBench.Harness.ClientSteps
import TailBench.Harness.ClientObjects
import TailBench.Harness.Session
import TailBench.Harness.SessionStream
import TailBench.Harness.Window
import TailBench.Harness.LatencyFile
import TailBench.Harness.Timeliness
import TailBench.Harness.RateLog
import TailBench.Harness.RateChanges
import TailBench.Harness.FailedSend
import TailBench.Harness.Budget
import TailBench.Harness.Rendezvous
import TailBench.Harness.Arrivals
import TailBench.Harness.Draws
import TailBench.Harness.Table
import TailBench.Harness.IdWrap
import TailBench.Harness.IntegratedServer
import TailBench.Harness.NetworkedServer
import TailBench.Harness.ServerSteps
import TailBench.Harness.ServerFds
import TailBench.Harness.ServerBytes
import TailBench.Harness.Routing
import TailBench.Harness.Buffers
import TailBench.Harness.LockDiscipline
import TailBench.Harness.ServerStreams
import TailBench.Harness.ServerReady
import TailBench.Harness.AtRest
import TailBench.Harness.Isolation
import TailBench.Harness.Descriptors
import TailBench.Harness.Selecting
import TailBench.Harness.Scans
import TailBench.Harness.Clock
import TailBench.Harness.System
import TailBench.Harness.SystemBytes
import TailBench.Harness.SystemView
import TailBench.Harness.Latency
import TailBench.Harness.MessageTypes
import TailBench.Shore.Worker
import TailBench.Shore.Mrmwqueue
import TailBench.Shore.PoolSteps
import TailBench.Shore.Fifo
import TailBench.Shore.ActiveWorker
import TailBench.Shore.Wakeup
import TailBench.Shore.TrxWorker
import TailBench.Shore.Stop
import TailBench.Shore.Spinning
import TailBench.Shore.ParseCpuset
import TailBench.Silo.BenchWorker
import TailBench.Silo.Tid
import TailBench.Silo.Tuple
import TailBench.Silo.Transaction
import TailBench.Silo.TransactionSteps
import TailBench.Silo.WriteSet
import TailBench.Silo.WriteLocks
import TailBench.Silo.WriteLockSteps
import TailBench.Silo.WriteLockRuns
import TailBench.Silo.CommitTids
import TailBench.Silo.Records
import TailBench.Silo.ReadSets
import TailBench.Silo.Serializable
import TailBench.Silo.Pxqueue
import TailBench.Silo.Rcu
import TailBench.Silo.Epochs
import TailBench.Silo.Cleanup
import TailBench.Silo.GracePeriods
import TailBench.Silo.TupleHeader
import TailBench.Silo.TupleMachine
import TailBench.Silo.TupleSteps
import TailBench.Silo.TupleReads
import TailBench.Silo.TupleRegister
import TailBench.Xapian.ProcessRequest
import TailBench.Xapian.TermSet
import TailBench.Xapian.Server
import TailBench.Masstree.Population
import TailBench.Masstree.Kpermuter
import TailBench.ImgDnn.Images
import TailBench.Utilities.AggLats
