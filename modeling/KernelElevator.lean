import KernelElevator.Machine.Run
import KernelElevator.Machine.Progress
import KernelElevator.Machine.Shuttle
import KernelElevator.Machine.Walk
import KernelElevator.Machine.Mutex
import KernelElevator.Machine.Decimal
import KernelElevator.Machine.Code
import KernelElevator.Machine.Ring
import KernelElevator.Machine.SafeWalk
import KernelElevator.Machine.Partition
import KernelElevator.Machine.Simulation
import KernelElevator.Machine.Lift
import KernelElevator.Machine.Overlay
import KernelElevator.Module.System
import KernelElevator.Module.InvariantTheorems
import KernelElevator.Module.CabinTheorems
import KernelElevator.Module.DrainTheorems
import KernelElevator.Module.ShutdownTheorems
import KernelElevator.Module.RestartTheorems
import KernelElevator.Module.RequestTheorems
import KernelElevator.Module.Exit
import KernelElevator.Module.RecordTheorems
import KernelElevator.Module.QueueTheorems
import KernelElevator.Module.SweepTheorems
import KernelElevator.Module.IterationTheorems
import KernelElevator.Module.Memory
import KernelElevator.Module.Links
import KernelElevator.Module.LinksTheorems
import KernelElevator.Module.LiftTheorems
import KernelElevator.Module.LostTheorems
import KernelElevator.Module.DeskTheorems
import KernelElevator.Module.StarvationTheorems
import KernelElevator.Module.WaitTheorems
import KernelElevator.Module.TimeTheorems
import KernelElevator.Threads.System
import KernelElevator.Threads.LockTheorems
import KernelElevator.Threads.FlagTheorems
import KernelElevator.Threads.RefinementTheorems
import KernelElevator.Threads.SharedTheorems
import KernelElevator.Threads.SerialTheorems
import KernelElevator.Kernel.Stubs
import KernelElevator.Kernel.StubTheorems
import KernelElevator.Kernel.ModuleTheorems
import KernelElevator.Kernel.AnswerTheorems
import KernelElevator.Clients.Programs
import KernelElevator.Clients.ClientTheorems
import KernelElevator.Proc.Report
import KernelElevator.Proc.OpeningTheorems
import KernelElevator.Proc.MomentTheorems
import KernelElevator.Proc.BufferTheorems
import KernelElevator.Proc.ReportTheorems
import KernelElevator.Proc.WalkTheorems
import KernelElevator.Proc.File
import KernelElevator.Proc.SessionTheorems
import KernelElevator.Proc.ReaderTheorems
import KernelElevator.Proc.BlockTheorems
import KernelElevator.Timer.MyTimer
import KernelElevator.Timer.MyTimerTheorems
import KernelElevator.Timer.PrintTheorems
import KernelElevator.Timer.Device
import KernelElevator.Timer.DeviceTheorems
