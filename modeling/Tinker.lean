import Tinker.Outcome
import Tinker.Machine
import Tinker.Types
import Tinker.Kernel
import Tinker.Schedule
import Tinker.ScheduleOps
import Tinker.ScheduleRun
import Tinker.CreationRun
import Tinker.Family
import Tinker.Ring
import Tinker.Itc
import Tinker.ItcRing
import Tinker.SemaphoreRun
import Tinker.SemaphoreCount
import Tinker.QueueRun
import Tinker.FamilyRun
import Tinker.Counted
import Tinker.Pthread
import Tinker.WaitLists
import Tinker.CondLists
import Tinker.MutexLists
import Tinker.MutexRun
import Tinker.CondRun
import Tinker.WaiterRun
import Tinker.Rwlock
import Tinker.RwlockCalls
import Tinker.RwlockRun
import Tinker.RwlockPrio
import Tinker.RwlockWake
import Tinker.Once
import Tinker.Heap
import Tinker.ItcObjects
import Tinker.System
import Tinker.SystemSteps
import Tinker.SystemMoves
import Tinker.Moves
import Tinker.Joins
import Tinker.JoinCalm
import Tinker.JoinSteps
import Tinker.JoinRun
import Tinker.Dispatch
import Tinker.RoundRobin
import Tinker.DeadRun
import Tinker.TimeoutRun
import Tinker.CancelRun
import Tinker.DeleteRun
import Tinker.Preempt
import Tinker.ArgChecks
import Tinker.PriorRing
import Tinker.PrioSwitch
import Tinker.RwlockRules
import Tinker.RwlockDecisions
import Tinker.VBuffers
import Tinker.Detach
import Tinker.SleepRun
import Tinker.VQueue
import Tinker.Builds
import Tinker.VQueueRun
import Tinker.Buffers
import Tinker.BufferRun
import Tinker.Semaphores
import Tinker.Mqueue
import Tinker.MqueueBox
import Tinker.MqueueRun
import Tinker.MqueueKept
import Tinker.MqOpen
import Tinker.MqOpenRun
import Tinker.MqSems
import Tinker.Kmem
import Tinker.KmemRun
import Tinker.Ramdisk
import Tinker.Rows
import Tinker.ItcCreate
import Tinker.Memory
import Tinker.CanFrame
import Tinker.CanRing
import Tinker.Console
import Tinker.RamFileRun
import Tinker.InodeShape
import Tinker.InodeLookup
import Tinker.FsOpen
import Tinker.TokenRun
import Tinker.NonYielding
import Tinker.NyRun
import Tinker.IrqMask
import Tinker.Systimer
import Tinker.Uptime
import Tinker.Bsearch
import Tinker.HeapCreation
import Tinker.RamSeek
import Tinker.MqueueStep
import Tinker.MqueueCapacity
import Tinker.MqueuePriority
import Tinker.ErrorText
import Tinker.SortWindow
import Tinker.MqueueSort
import Tinker.HeapTable
import Tinker.SectorChainRun
import Tinker.SectorRefines
import Tinker.SectorRefinesRun
import Tinker.Tiles
import Tinker.FirstFit
import Tinker.Stalloc
import Tinker.StallocBlocks
import Tinker.StallocRun
import Tinker.Parts
import Tinker.SectorFiles
import Tinker.SectorFilesRun
import Tinker.Owned
import Tinker.MqueueCalls
import Tinker.Fifo
import Tinker.FifoRun
import Tinker.WorldTable
import Tinker.DispatchRun
import Tinker.Stacks
import Tinker.StacksRun
