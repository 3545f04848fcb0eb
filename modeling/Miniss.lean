import Miniss.Lib.Machine
import Miniss.Lib.Dialogue
import Miniss.Lib.BoundedFifo
import Miniss.Lib.Tabulation
import Miniss.Lib.Lists
import Miniss.Lib.SortedMap
import Miniss.Lib.Matching
import Miniss.Lib.Lockstep
import Miniss.Lib.Latches
import Miniss.Lib.Places
import Miniss.Util.Semaphore
import Miniss.Util.SemaphoreOrder
import Miniss.Util.SystemError
import Miniss.Poller.SignalPoller
import Miniss.Io.Timer
import Miniss.Io.TimerSteps
import Miniss.Io.TimerArmed
import Miniss.Io.TimerOrder
import Miniss.Io.SyscallResult
import Miniss.Io.SyscallRunner
import Miniss.Io.SyscallSteps
import Miniss.Io.SyscallRoom
import Miniss.Io.SyscallWakeup
import Miniss.Io.SyscallOrder
import Miniss.Io.SyscallShutdown
import Miniss.Io.FileIo
import Miniss.Io.FileIoSteps
import Miniss.Io.FileIoPath
import Miniss.Io.FileIoSlots
import Miniss.Io.FileIoPromises
import Miniss.Io.File
import Miniss.Io.FileSteps
import Miniss.Io.FileOrder
import Miniss.CpuRun
import Miniss.Util.UnboundedSpscQueue
import Miniss.CrossCpuQueue
import Miniss.CrossCpuSteps
import Miniss.CrossCpuOnce
import Miniss.Os
import Miniss.OsSteps
import Miniss.OsPass
import Miniss.OsWakeup
import Miniss.OsRuns
import Miniss.OsDelivery
import Miniss.CpuRunSteps
import Miniss.CpuRunIdle
import Miniss.CpuRunSignals
import Miniss.CpuRunOrder
import Miniss.Seastar.Future
import Miniss.FutureUtil
import Miniss.FutureUtilSlots
import Miniss.FutureUtilCollect
import Miniss.FutureUtilResult
import Miniss.SubmitTo
import Miniss.SubmitToSteps
import Miniss.SubmitToAgree
import Miniss.Io.TimerOverflow
import Miniss.Io.FileOwner
import Miniss.Poller.SignalPollerRun
import Miniss.Poller.SignalPollerNoted
import Miniss.Util.SpscQueueFifo
import Miniss.Io.FileIoEventfd
import Miniss.CpuRunFileIo
import Miniss.CpuRunBlocks
import Miniss.EnableCoroutine
import Miniss.EnableCoroutineAwait
import Miniss.EnableCoroutineSteps
import Miniss.EnableCoroutineRun
import Miniss.EnableCoroutineResult
import Miniss.Seastar.FutureStateVoid
import Miniss.Seastar.FutureHeap
import Miniss.Seastar.FutureHeapTasks
import Miniss.Seastar.FutureValues
import Miniss.Seastar.FutureHeapValues
import Miniss.Seastar.FutureHeapSteps
import Miniss.Seastar.FutureHeapFutures
import Miniss.Seastar.FutureHeapRefines
import Miniss.Seastar.FutureHeapPointers
import Miniss.Seastar.FutureCustody
import Miniss.Seastar.FutureHeapCustody
import Miniss.Seastar.FutureHeapReports
import Miniss.Seastar.Computation
import Miniss.Seastar.Fibers
import Miniss.Seastar.FiberResults
import Miniss.Seastar.FutureChains
import Miniss.Seastar.FutureChainLinks
import Miniss.Seastar.FutureChainAttach
import Miniss.Seastar.FutureChainTasks
import Miniss.Seastar.FutureChainRefines
import Miniss.Seastar.FiberProgress
import Miniss.Seastar.FutureChainResults
import Miniss.Seastar.Combinators
import Miniss.OsInit
