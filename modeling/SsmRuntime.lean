import SsmRuntime.Library.BinaryHeap
import SsmRuntime.Library.Table
import SsmRuntime.State
import SsmRuntime.Queues
import SsmRuntime.Memory
import SsmRuntime.Scheduler
import SsmRuntime.Closures
import SsmRuntime.EventQueue
import SsmRuntime.RefCounts
import SsmRuntime.HeapRuns
import SsmRuntime.PendingMap
import SsmRuntime.Determinism
import SsmRuntime.PoolRuns
import SsmRuntime.PoolStatistics
import SsmRuntime.Counting
import SsmRuntime.ActRuns
import SsmRuntime.TriggerRuns
import SsmRuntime.Library.RingIndex
import SsmRuntime.InputLoop
import SsmRuntime.Conversions
import SsmRuntime.WrapRuns
import SsmRuntime.SleepLoop
import SsmRuntime.ProcessTree
import SsmRuntime.DropCascade
import SsmRuntime.ObjectSizes
import SsmRuntime.EventCascade
import SsmRuntime.Currying
import SsmRuntime.Timer
import SsmRuntime.Timespec
import SsmRuntime.PoolRouting
import SsmRuntime.Reset
import SsmRuntime.QueueEntries
import SsmRuntime.Library.Logged
import SsmRuntime.QueueIndices
import SsmRuntime.Library.Nesting
import SsmRuntime.Forks
import SsmRuntime.Routines
import SsmRuntime.ForkInstant
import SsmRuntime.TreeWalk
import SsmRuntime.LoopRounds
import SsmRuntime.PosixLoop
import SsmRuntime.InputResponse
import SsmRuntime.HeapMemory
import SsmRuntime.CallFrames
import SsmRuntime.CallSafety
import SsmRuntime.ApiRuns
import SsmRuntime.Library.WhileLoop
import SsmRuntime.Simulation
import SsmRuntime.StdoutHandler
