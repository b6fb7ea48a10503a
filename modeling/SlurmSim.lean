import SlurmSim.Backfill.PackDeadlock
import SlurmSim.Backfill.ResetTimeLimit
import SlurmSim.Backfill.ResvOverlap
import SlurmSim.Backfill.RetryProgress
import SlurmSim.Backfill.Workflow
import SlurmSim.Common.BitContiguous
import SlurmSim.Common.BitFmtRange
import SlurmSim.Common.BitMasks
import SlurmSim.Common.BitRotate
import SlurmSim.Common.BitSteps
import SlurmSim.Common.BufferCodec
import SlurmSim.Common.ExtractNode
import SlurmSim.Common.ListRuns
import SlurmSim.Common.StepLayout
import SlurmSim.Controller.AcctPolicyExact
import SlurmSim.Controller.ArraySignal
import SlurmSim.Controller.DependErrors
import SlurmSim.Controller.DependGraph
import SlurmSim.Controller.GangRuns
import SlurmSim.Controller.JobArrayRuns
import SlurmSim.Controller.JobQueueOrder
import SlurmSim.Controller.LicenseSync
import SlurmSim.Controller.LicenseText
import SlurmSim.Controller.Locks
import SlurmSim.Controller.PlusSingletonRuns
import SlurmSim.Controller.PortRuns
import SlurmSim.Controller.PowerCap
import SlurmSim.Controller.QosLimits
import SlurmSim.Controller.TestDependency
import SlurmSim.Controller.TimeSlice
import SlurmSim.Hostlist.CreateExact
import SlurmSim.Hostlist.Histories
import SlurmSim.Priority.AppLookup
import SlurmSim.Priority.BestProjection
import SlurmSim.Priority.EnergyRuns
import SlurmSim.Priority.FairTreeCarry
import SlurmSim.Priority.FairTreeTies
import SlurmSim.Priority.PartPriority
import SlurmSim.Priority.PlusSingletonBonus
import SlurmSim.Priority.RunSecs
import SlurmSim.Reservation.JobTestExact
import SlurmSim.Reservation.JobTestForward
import SlurmSim.Reservation.Recurrence
import SlurmSim.Select.BlockCores
import SlurmSim.Select.CyclicCores
import SlurmSim.Select.ExpandExact
import SlurmSim.Select.GenCombs
import SlurmSim.Select.MemoryFits
import SlurmSim.Select.RetryAttempts
import SlurmSim.Select.SimulationLeak
import SlurmSim.Select.VariantSound
import SlurmSim.Simulator.CompletionRuns
import SlurmSim.Simulator.CycleSync
import SlurmSim.Simulator.Events
import SlurmSim.Simulator.RsvTrace
import SlurmSim.Simulator.SubmitLoop
import SlurmSim.Simulator.TraceIds
import SlurmSim.Slurmd.ReverseTree
