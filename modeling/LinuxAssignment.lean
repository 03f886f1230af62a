import LinuxAssignment.MultiDeviceBounds
import LinuxAssignment.SingleDevice
import LinuxAssignment.Machine
import LinuxAssignment.MultiDeviceRoundTrip
import LinuxAssignment.FailedWrite
import LinuxAssignment.PipelineHandOver
import LinuxAssignment.PipelineAlternation
import LinuxAssignment.PrinterPool
import LinuxAssignment.ProcessReaping
import LinuxAssignment.ConcurrentBounds
import LinuxAssignment.EtxUnload
import LinuxAssignment.MultiLoad
import LinuxAssignment.ProducerConsumerProgress
import LinuxAssignment.LockedCounter
import LinuxAssignment.TaskletExit
import LinuxAssignment.IoctlRegister
import LinuxAssignment.SingleDeviceReaders
import LinuxAssignment.UserSession
import LinuxAssignment.UserExit
import LinuxAssignment.UserFraming
import LinuxAssignment.RelayProgress
import LinuxAssignment.SocketRelay
import LinuxAssignment.ChildReaping
import LinuxAssignment.DeviceTreeProbe
import LinuxAssignment.MessageQueue
import LinuxAssignment.MessageRace
import LinuxAssignment.SharedPrints
import LinuxAssignment.SigcontTiming
import LinuxAssignment.UnlockedCounter
import LinuxAssignment.DemoDeadlock
import LinuxAssignment.CriticalSection
import LinuxAssignment.PrinterTurns
import LinuxAssignment.MultiDeviceStore
import LinuxAssignment.UserProgram
import LinuxAssignment.MessageTraffic
import LinuxAssignment.PendingSignal
import LinuxAssignment.DeferredSignal
import LinuxAssignment.BlockingChild
import LinuxAssignment.PlatformBus
import LinuxAssignment.Workqueue
import LinuxAssignment.ProducerConsumerTurns
import LinuxAssignment.PipelineTurns
import LinuxAssignment.CounterRuns
import LinuxAssignment.IoctlClients
import LinuxAssignment.ReapingRest
