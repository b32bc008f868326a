import Ome.Placement.Allocation.Capacity
import Ome.Placement.Allocation.Progress
import Ome.Coordination.BatchLockstep
import Ome.Coordination.PairingLiveness
import Ome.Coordination.PairingTransition
import Ome.Placement.FloorsAlongMove
import Ome.Placement.SplitAgreement
import Ome.Placement.Plan.Authority
import Ome.Quota.Positions
import Ome.Quota.ProjectionOrder
import Ome.Quota.HighWater
import Ome.Quota.Writes
import Ome.Quota.Granted
import Ome.Placement.Routing.CapacityEvidence
import Ome.Workload.PlanFill
import Ome.Workload.UpdateBudget
import Ome.Coordination.RatioLockstep
import Ome.StatusCodec.RoundTrip
import Ome.StatusCodec.Readers
import Ome.Coordination.SequentialAgreement
import Ome.Scheduler.GateRuns
import Ome.Scheduler.PackingApart
import Ome.Alfred.SurgeAgreement
import Ome.Canary.Cutover
import Ome.Canary.Course
import Ome.Canary.Traffic
import Ome.Rollout.Repin
import Ome.Rollout.Adoption
import Ome.RuntimeSelector.Selection
import Ome.Placement.SecondaryHolds
