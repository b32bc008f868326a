/-
# Ome.Alfred.Snapshot — what Alfred sees of the cluster

The parts of a cluster snapshot that the arbiter, the surge planner and the
defragmentation simulator read.  Nodes are listed in any order (the order the map is
iterated in) under different names; free GPUs are between zero and the total, as the
builder computes them.  Times and durations are in nanoseconds.
-/
import Ome.Theory.GoMap

namespace Ome.Alfred

open Ome.Theory

set_option autoImplicit false

structure NamespacedName where
  ns : String
  name : String
  deriving DecidableEq

def NamespacedName.text (k : NamespacedName) : String := k.ns ++ "/" ++ k.name

/-- A node of the snapshot. -/
structure Node where
  name : String
  gpuPool : String
  totalGPUs : Int
  freeGPUs : Int
  quarantined : Bool
  maintenanceRequested : Bool
  cordoned : Bool
  scaleDownMarked : Bool
  preemptible : Bool
  freeGPUs_nonneg : 0 ≤ freeGPUs
  freeGPUs_le : freeGPUs ≤ totalGPUs

def Node.unavailableAsTarget (n : Node) : Bool :=
  n.quarantined || n.maintenanceRequested || n.cordoned || n.scaleDownMarked

structure PodInfo where
  ns : String
  name : String
  node : String
  gpus : Int
  terminating : Bool
  startTime : Option Int
  isvc : NamespacedName
  component : String
  instanceIndex : Int
  instanceIndexPresent : Bool
  instanceIndexValid : Bool
  incarnation : Int
  incarnationPresent : Bool
  incarnationValid : Bool

structure Instance where
  index : Int
  incarnation : Int
  pods : List PodInfo
  /-- How many member pods run on each node. -/
  nodesSet : GoMap String Nat
  totalGPUs : Int

structure WorkloadComponent where
  instances : List Instance

/-- A migration in flight. -/
structure InFlight where
  requestedAt : Int

structure ModelKey where
  kind : String
  ns : String
  name : String
  deriving DecidableEq

def ModelKey.zero (k : ModelKey) : Bool := k.name = ""

inductive Backend where
  | perNode
  | pvc
  | other (name : String)
  deriving DecidableEq

structure ModelAvailability where
  backend : Backend
  nodesReady : List String
  /-- None is unconstrained. -/
  pvcTopologyNodes : Option (List String)
  volumePinned : Bool
  resolveError : String

/-- The spot policy that a workload's annotation asks for. -/
inductive SpotPolicy where
  | unset
  | avoid
  | migrate
  | ignore
  deriving DecidableEq

structure Workload where
  key : NamespacedName
  components : GoMap String (Option WorkloadComponent)
  modelKey : ModelKey
  movable : Bool
  cooldownOverride : Option Int
  spotPolicy : SpotPolicy
  lastMigration : Option Int
  activeMigrations : List InFlight
  malformedRequests : List String
  migrationStateValid : Bool

structure ClusterSnapshot where
  nodes : List Node
  distinct : (nodes.map Node.name).Nodup
  workloads : GoMap NamespacedName (Option Workload)
  models : GoMap ModelKey (Option ModelAvailability)

namespace ClusterSnapshot

variable (snap : ClusterSnapshot)

/-- The node under a name. -/
def node (name : String) : Option Node := snap.nodes.find? (·.name = name)

def poolNodes (pool : String) : List Node :=
  snap.nodes.filter fun n => n.gpuPool = pool ∧ 0 < n.totalGPUs

theorem node_eq_some {n : Node} (member : n ∈ snap.nodes) : snap.node n.name = some n :=
  find?_key snap.distinct member

end ClusterSnapshot

/-- The settings of a loaded configuration; the defaults have been filled in. -/
structure Config where
  maxInFlightMigrations : Int
  maxMigrationsPerHour : Int
  perWorkloadCooldown : Int
  perNodeCooldown : Int
  healthCooldownFloor : Int
  recentPlacementCooldown : Int
  /-- `spotPolicy.avoidAsTarget`. -/
  avoidAsTarget : Bool

end Ome.Alfred
