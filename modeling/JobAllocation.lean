import JobAllocation.Config.Toml
import JobAllocation.Exact
import JobAllocation.Interchange.Outcome
import JobAllocation.Json.Reader
import JobAllocation.Json.Writer
import JobAllocation.Proofs.ExactTimes
import JobAllocation.Proofs.MovedLoads
import JobAllocation.Proofs.MoveLog
import JobAllocation.Proofs.PlannedTimes
import JobAllocation.Proofs.RoundRobinOverlap
import JobAllocation.Proofs.InitialAssignments
import JobAllocation.Proofs.SteepestDescent
import JobAllocation.Proofs.HillClimbingRun
import JobAllocation.Proofs.HonestSchedules
import JobAllocation.InPlace
import JobAllocation.Proofs.InPlaceRuns
import JobAllocation.Proofs.Bookings
import JobAllocation.Proofs.Choices
import JobAllocation.Proofs.SearchOrder
import JobAllocation.Proofs.InputOrder
import JobAllocation.Proofs.SingleUnit
import JobAllocation.Proofs.CommitmentOrder
import JobAllocation.Proofs.ShortestFirst
import JobAllocation.Proofs.WorkConservation
import JobAllocation.Proofs.EarliestDeadline
import JobAllocation.Proofs.IrrelevantFields
import JobAllocation.Proofs.RealizedMakespan
import JobAllocation.Proofs.AssignmentAcceptance
import JobAllocation.Proofs.CleanReports
import JobAllocation.Proofs.BusyTimes
import JobAllocation.Proofs.BatchChoices
import JobAllocation.Proofs.FinishOrder
import JobAllocation.Proofs.ResumedSearch
import JobAllocation.Proofs.UnitIndependence
import JobAllocation.Proofs.TimeAccounting
import JobAllocation.Proofs.RetimedAllocations
import JobAllocation.Proofs.DelayedPools
import JobAllocation.Proofs.RoundRobinTurns
import JobAllocation.Proofs.StrictTimes
import JobAllocation.Proofs.RoundRobinReadyTimes
import JobAllocation.Proofs.PriorityOrder
import JobAllocation.Proofs.ShortestByCount
import JobAllocation.Proofs.TimingAnomalies
import JobAllocation.Proofs.ReportedDefects
import JobAllocation.Proofs.ModerateInput
import JobAllocation.Proofs.RankedChoice
import JobAllocation.Proofs.QuantumTrade
import JobAllocation.Proofs.LargeQuantum
import JobAllocation.Proofs.BalancedStart
import JobAllocation.Proofs.OrderedBindings
import JobAllocation.Proofs.InputFaults
import JobAllocation.Proofs.ReplacedLoads
import JobAllocation.Proofs.DrawnSpeeds
