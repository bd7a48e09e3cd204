import DemoOS.Proofs.Scheduler.Signals
import DemoOS.Proofs.Scheduler.Dependants
import DemoOS.Proofs.Messages.Delivery
import DemoOS.Proofs.Preemption.Pages
import DemoOS.Proofs.Preemption.Wait
import DemoOS.Proofs.Preemption.QueueOperations
import DemoOS.Proofs.Scheduler.Lottery
import DemoOS.Proofs.Scheduler.ProcessTable
import DemoOS.Proofs.Scheduler.ShortestJob
import DemoOS.Proofs.Memory.PageTables
import DemoOS.Proofs.Scheduler.TimeSlices
import DemoOS.Proofs.Scheduler.LevelQueues
import DemoOS.Proofs.Scheduler.Lockstep
import DemoOS.Proofs.Scheduler.TopLevel
import DemoOS.Proofs.Scheduler.Console
import DemoOS.Proofs.Preemption.Input
import DemoOS.Proofs.Console.Receive
import DemoOS.Proofs.Scheduler.AgingBonus
import DemoOS.Proofs.Scheduler.AgingSelection
import DemoOS.Proofs.Scheduler.BoostTick
import DemoOS.Proofs.Memory.CopyCode
import DemoOS.Proofs.Scheduler.LotteryRandom
import DemoOS.Proofs.Common.MemoryPrimitives
import DemoOS.Proofs.Shell.Strings
import DemoOS.Proofs.Shell.Arguments
import DemoOS.Proofs.Shell.Components
import DemoOS.Proofs.Shell.Handlers
import DemoOS.Proofs.Shell.Locations
import DemoOS.Proofs.Shell.NormalizePath
import DemoOS.Proofs.Preemption.InputLine
import DemoOS.Proofs.UserCopies
import DemoOS.Proofs.Descriptors
import DemoOS.Proofs.DescriptorUse
import DemoOS.Proofs.Memory.AddressSpaces
import DemoOS.Proofs.Memory.CopyMemory
import DemoOS.Proofs.Memory.ExecImage
import DemoOS.Proofs.Memory.SpaceRuns
import DemoOS.Proofs.Fat32.PowerLoss
import DemoOS.Proofs.Fat32.DirWalk
