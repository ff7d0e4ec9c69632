import Libcr.Foundations.MachineInt
import Libcr.Foundations.LinkedSeqs
import Libcr.Foundations.Buckets
import Libcr.Foundations.Runs
import Libcr.Foundations.Interleaving
import Libcr.Foundations.Loops
import Libcr.Foundations.Chain
import Libcr.Foundations.Threaded
import Libcr.Foundations.ByteMemory
import Libcr.Foundations.LazyCells
import Libcr.Foundations.Writes
import Libcr.Foundations.Heap
import Libcr.Timer.Lists
import Libcr.Timer.ListHeap
import Libcr.Timer.Wheel
import Libcr.Timer.WheelInvariant
import Libcr.Timer.WheelExact
import Libcr.Timer.WheelLimits
import Libcr.IdMap.Bits
import Libcr.IdMap.Live
import Libcr.Context.Swap
import Libcr.Context.Resume
import Libcr.Scheduler.State
import Libcr.Scheduler.Poll
import Libcr.Scheduler.Task
import Libcr.Scheduler.EventLoop
import Libcr.Scheduler.Step
import Libcr.Scheduler.Discipline
import Libcr.Scheduler.Registration
import Libcr.Scheduler.Invariant
import Libcr.Scheduler.Transition
import Libcr.Scheduler.Inversion
import Libcr.Scheduler.Iteration
import Libcr.Scheduler.Preservation
import Libcr.Scheduler.Init
import Libcr.Scheduler.PoolCreation
import Libcr.Scheduler.Trace
import Libcr.Scheduler.PoolConservation
import Libcr.Scheduler.CallStack
import Libcr.Scheduler.WakeTargets
import Libcr.Scheduler.Ownership
import Libcr.Scheduler.Places
import Libcr.Scheduler.Armed
import Libcr.Scheduler.WakeUp
import Libcr.Scheduler.WakeOrder
import Libcr.Scheduler.Unwinding
import Libcr.Scheduler.Reuse
import Libcr.Scheduler.Execution
import Libcr.Scheduler.Submission
import Libcr.Scheduler.Deadline
import Libcr.Scheduler.OnTime
import Libcr.Scheduler.Admission
import Libcr.Scheduler.Masks
import Libcr.Scheduler.Revents
import Libcr.Scheduler.Repeated
import Libcr.Hook.Calls
import Libcr.Hook.Fcntl
import Libcr.Hook.Expiry
import Libcr.Hook.Turns
import Libcr.Hook.Receive
import Libcr.Hook.Transmit
import Libcr.Hook.Connect
import Libcr.Hook.Select
import Libcr.Hook.SelectAnswer
import Libcr.Hook.Spinning
import Libcr.Hook.Timed
import Libcr.Hook.Descriptors
import Libcr.Hook.DescriptorEffects
import Libcr.Hook.InStep
import Libcr.Hook.Resolve
import Libcr.Hook.HostLookup
import Libcr.Hook.HostSteps
import Libcr.Hook.HostBuffers
import Libcr.Hook.HostResults
import Libcr.Process.Options
import Libcr.Process.Threads
import Libcr.Old.State
import Libcr.Old.Step
import Libcr.Old.Invariant
import Libcr.Old.Effect
import Libcr.Old.Preservation
import Libcr.Old.Turns
import Libcr.Old.Faults
import Libcr.Old.Ids
import Libcr.Old.Waiting
import Libcr.Old.Transfers
