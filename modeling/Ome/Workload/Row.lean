/-
# Ome.Workload.Row — the row of one Instance

The fields of `InstanceStatus`, `InstanceOperation` and `RetryBlock` that the plan and
the update pass read.  Indexes, counts and ordinals are 32-bit, times are numbers.  A
step is a string in the source; the ones with a meaning to the passes modelled here are
named.
-/
import Mathlib.Algebra.Order.Ring.Int
import Mathlib.Data.Option.Basic

namespace Ome.Workload

set_option autoImplicit false

inductive InstancePhase where
  | empty
  | pending
  | creating
  | ready
  | updating
  | restarting
  | migrating
  | failed
  | deleting
  deriving DecidableEq

inductive InstanceOperationType where
  | create
  | update
  | restart
  | migrate
  | delete
  deriving DecidableEq

inductive OperationStep where
  | inPlace
  | drain
  | parked
  | createSurge
  | surge
  | gangSurgeTarget
  | gangSurgeTargetCleanup
  | surgeDrain
  | surgeDrainSettle
  | other (text : String)
  deriving DecidableEq

structure InstanceOperation where
  type : InstanceOperationType
  step : OperationStep
  targetRevision : String
  surgeIndex : Option Int
  requestUUID : String
  deriving DecidableEq

structure InstanceStatus where
  index : Int
  incarnation : Int
  phase : InstancePhase
  runningRevision : String
  targetRevision : String
  podCount : Int
  servingPodCount : Int
  readySince : Option Int
  operation : Option InstanceOperation
  activeOrdinal : Int
  /-- The time of the last failure. -/
  lastFailure : Option Int
  deriving DecidableEq

/-- A failure after the row became ready. -/
def InstanceStatus.remembersCrash (s : InstanceStatus) : Bool :=
  match s.lastFailure, s.readySince with
  | some failed, some ready => ready < failed
  | _, _ => false

inductive RetryBlockState where
  | backoff
  | held
  | retryInProgress
  deriving DecidableEq

structure RetryBlock where
  targetRevision : String
  state : RetryBlockState
  deriving DecidableEq

def findRetryBlock (blocks : List RetryBlock) (targetRevision : String) : Option RetryBlock :=
  blocks.find? fun block => block.targetRevision = targetRevision

end Ome.Workload
