import Tpool.Concurrency.System
import Tpool.Concurrency.Fair
import Tpool.Concurrency.Observe
import Tpool.Concurrency.Monitor
import Tpool.Concurrency.Fifo
import Tpool.Concurrency.Blocked
import Tpool.Concurrency.Locks
import Tpool.Concurrency.WaitsFor
import Tpool.Sync.CountDownLatch
import Tpool.Sync.CyclicBarrier
import Tpool.Sync.BarrierFate
import Tpool.Sync.Atomic
import Tpool.Sync.Lockers
import Tpool.Structures.PriorityQueue
import Tpool.Structures.BinaryHeap
import Tpool.Structures.Checked
import Tpool.Queue.QueueImpl
import Tpool.Queue.BlockingQueue
import Tpool.Queue.BoundedBlockingQueue
import Tpool.Queue.LinearTaskQueue
import Tpool.Task.TaskBase
import Tpool.Task.Barrier
import Tpool.Task.Cancellers
import Tpool.Task.Overlap
import Tpool.Task.FutureTask
import Tpool.Task.TryGetResult
import Tpool.Queue.TaskQueue
import Tpool.Pool.Core
import Tpool.Pool.Served
import Tpool.Thread.ThreadLocal
import Tpool.Thread.CancelableThread
import Tpool.Thread.WorkerThread
import Tpool.Thread.SharedWorker
import Tpool.Thread.WorkerClients
import Tpool.Thread.WorkerCancel
import Tpool.Thread.WorkerCancelNow
import Tpool.Thread.ThreadFunction
import Tpool.Thread.Timer
import Tpool.Thread.SharedTimer
import Tpool.Thread.TimerTasks
import Tpool.Thread.TimerQueue
import Tpool.Thread.TimerWait
import Tpool.Thread.TimerStop
import Tpool.Thread.TimerLive
import Tpool.Thread.TimerOnce
import Tpool.Thread.TimerEarly
import Tpool.Thread.TimerFair
import Tpool.Thread.TimedWait
import Tpool.Sync.TimedWaitLoop
import Tpool.Pool.FixedThreadPool
import Tpool.Pool.AddFutureTask
import Tpool.Pool.Steps
import Tpool.Pool.Invariant
import Tpool.Pool.Calls
import Tpool.Pool.Simulation
import Tpool.Pool.Threads
import Tpool.Pool.Tasks
import Tpool.Pool.Interval
import Tpool.Pool.Stop
import Tpool.Pool.Graceful
import Tpool.Pool.Failure
import Tpool.Pool.Accepted
import Tpool.Pool.StopNow
import Tpool.Pool.Waiting
import Tpool.Pool.Progress
import Tpool.Pool.Dispatch
import Tpool.Pool.Fair
import Tpool.Pool.Liveness
import Tpool.Pool.EveryTask
import Tpool.Pool.OneTask
import Tpool.Pool.Cancelling
import Tpool.Pool.Destructor
import Tpool.Pool.Destruction
import Tpool.Concurrency.Returns
import Tpool.Queue.Returns
import Tpool.Sync.Returns
import Tpool.Concurrency.LockFair
import Tpool.Concurrency.Sections
import Tpool.Sync.AtomicAccess
import Tpool.Concurrency.Total
import Tpool.Sync.AtomicNumber
import Tpool.Concurrency.Project
import Tpool.Task.Returns
