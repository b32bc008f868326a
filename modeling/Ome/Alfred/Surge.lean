/-
# Ome.Alfred.Surge — planning and simulating an atomic surge

Model of the surge planner that the policies share (`planAtomicSurge`: every GPU pod of an
instance is given a replacement place before any source is released) and of the simulator
by which the defragmentation policy scores a plan (`simulateSurgePlan` on
`schedulableBins`).

The planner's inputs are not nil, and GPU quantities are exact.  The fields of pods, nodes
and workloads that neither reads are left out.
-/
import Ome.Alfred.Snapshot

namespace Ome.Alfred

open Ome.Theory

set_option autoImplicit false

/-! ## The planner -/

/-- One member pod of a plan. -/
structure SurgeMove where
  pod : String
  fromNode : String
  targetNode : String
  gpus : Int

structure SurgePlan where
  moves : List SurgeMove
  hintTargetNodes : List String
  placementTargetNodes : List String

def maxHintTargets : Nat := 3

inductive ModelAdvisory where
  | modelUnresolved
  | volumePinned
  deriving DecidableEq

/-- Why the workload's model keeps it from moving. -/
def modelAdvisoryReason (snap : ClusterSnapshot) (w : Workload) : Option ModelAdvisory :=
  if w.modelKey.zero then none
  else
    match snap.models.get w.modelKey with
    | none => some .modelUnresolved
    | some avail =>
      if avail.resolveError ≠ "" then some .modelUnresolved
      else if avail.volumePinned then some .volumePinned
      else none

/-- The nodes the model allows; none when it does not constrain them. -/
def modelTargetNodes (snap : ClusterSnapshot) (w : Workload) : Option (List String) :=
  if w.modelKey.zero then none
  else
    match snap.models.get w.modelKey with
    | none => some []
    | some avail =>
      if avail.resolveError ≠ "" then some []
      else
        match avail.backend with
        | .perNode => some avail.nodesReady
        | .pvc => avail.pvcTopologyNodes
        | .other _ => none

structure SurgeFootprint where
  pod : String
  node : String
  gpus : Int

def SurgeFootprint.moveTo (print : SurgeFootprint) (target : String) : SurgeMove :=
  ⟨print.pod, print.node, target, print.gpus⟩

/-- What the walk over the pods has gathered. -/
structure Footprints where
  prints : List SurgeFootprint
  sourceNodes : GoMap String Nat
  totalGPUs : Int
  component : String

/-- The pod belongs to the instance, by all the evidence it carries. -/
def PodInfo.belongs (pod : PodInfo) (w : Workload) (inst : Instance) : Bool :=
  pod.ns = w.key.ns ∧ pod.name ≠ "" ∧ pod.node ≠ "" ∧ ¬ pod.gpus < 0 ∧ pod.isvc = w.key ∧
    pod.instanceIndexPresent ∧ pod.instanceIndexValid ∧ pod.instanceIndex = inst.index ∧
    pod.incarnationPresent ∧ pod.incarnationValid ∧ pod.incarnation = inst.incarnation

def PodInfo.footprint (pod : PodInfo) : SurgeFootprint :=
  ⟨pod.ns ++ "/" ++ pod.name, pod.node, pod.gpus⟩

def Footprints.gather (w : Workload) (inst : Instance) (f : Footprints) (pod : PodInfo) :
    Option Footprints :=
  if pod.belongs w inst = false then none
  else if f.component ≠ "" ∧ pod.component ≠ f.component then none
  else
    some
      { prints := if pod.gpus = 0 then f.prints else f.prints ++ [pod.footprint]
        sourceNodes := f.sourceNodes.set pod.node (f.sourceNodes.get pod.node + 1)
        totalGPUs := f.totalGPUs + pod.gpus
        component := if f.component = "" then pod.component else f.component }

/-- Larger footprints first, then by pod. -/
def SurgeFootprint.Before (a b : SurgeFootprint) : Prop :=
  b.gpus < a.gpus ∨ a.gpus = b.gpus ∧ a.pod ≤ b.pod

instance : DecidableRel SurgeFootprint.Before := fun a b =>
  inferInstanceAs (Decidable (b.gpus < a.gpus ∨ a.gpus = b.gpus ∧ a.pod ≤ b.pod))

def validatedSurgeFootprints (w : Workload) (inst : Instance) :
    Option (List SurgeFootprint × GoMap String Nat) :=
  match inst.pods.foldlM (Footprints.gather w inst) ⟨[], GoMap.empty, 0, ""⟩ with
  | none => none
  | some f =>
    if f.prints = [] ∨ f.totalGPUs ≠ inst.totalGPUs ∨
        f.sourceNodes.keys.length ≠ inst.nodesSet.keys.length then none
    else if ∃ node ∈ f.sourceNodes.keys, inst.nodesSet.get node ≠ f.sourceNodes.get node then none
    else some (f.prints.insertionSort SurgeFootprint.Before, f.sourceNodes)

def workloadAvoidsSpotTarget (w : Workload) (cfg : Config) : Bool :=
  cfg.avoidAsTarget || decide (w.spotPolicy = .avoid)

structure SurgeTarget where
  name : String
  free : Int

/-- Tighter targets first, then by name. -/
def SurgeTarget.Before (a b : SurgeTarget) : Prop :=
  a.free < b.free ∨ a.free = b.free ∧ a.name ≤ b.name

instance : DecidableRel SurgeTarget.Before := fun a b =>
  inferInstanceAs (Decidable (a.free < b.free ∨ a.free = b.free ∧ a.name ≤ b.name))

/-- The pool of the nodes the footprints are on, which is the same for all. -/
def surgePool (snap : ClusterSnapshot) : List SurgeFootprint → String → Option String
  | [], pool => if pool = "" then none else some pool
  | print :: rest, pool =>
    match snap.node print.node with
    -- every source node was looked up before
    | none => none
    | some node =>
      if node.gpuPool = "" then none
      else if pool = "" then surgePool snap rest node.gpuPool
      else if node.gpuPool ≠ pool then none
      else surgePool snap rest pool

/-- Whether a node may be a target of the plan. -/
def surgeEligible (w : Workload) (cfg : Config) (excluded : List String)
    (allowed : Option (List String)) (minimum : Int) (node : Node) : Bool :=
  decide (node.name ∉ excluded) &&
    !(node.unavailableAsTarget || (workloadAvoidsSpotTarget w cfg && node.preemptible) ||
      decide (node.freeGPUs < minimum)) &&
    (match allowed with
    | none => true
    | some names => decide (node.name ∈ names))

def surgeTargets (snap : ClusterSnapshot) (cfg : Config) (w : Workload) (pool : String)
    (excluded : List String) (minimum : Int) : List SurgeTarget :=
  (((snap.poolNodes pool).filter
      (surgeEligible w cfg excluded (modelTargetNodes snap w) minimum)).map
    fun node => ⟨node.name, node.freeGPUs⟩).insertionSort SurgeTarget.Before

/-- Every footprint goes to the first target that still has that much free. -/
def placePrints (targets : List SurgeTarget) : List SurgeFootprint → GoMap String Int →
    Option (List SurgeMove)
  | [], _ => some []
  | print :: rest, free =>
    match targets.find? (fun target => !decide (free.get target.name < print.gpus)) with
    | none => none
    | some target =>
      (placePrints targets rest
        (free.set target.name (free.get target.name - print.gpus))).map
          (print.moveTo target.name :: ·)

def planAtomicSurge (snap : ClusterSnapshot) (cfg : Config) (w : Workload) (inst : Instance) :
    Option SurgePlan :=
  if modelAdvisoryReason snap w ≠ none then none
  else
    match validatedSurgeFootprints w inst with
    | none => none
    | some (prints, sourceNodes) =>
      if ∃ name ∈ sourceNodes.keys, snap.node name = none then none
      else
        match surgePool snap prints "" with
        | none => none
        | some pool =>
          let minimum := (prints.getLast?.map (·.gpus)).getD 0
          let targets := surgeTargets snap cfg w pool sourceNodes.keys minimum
          let free := targets.foldl (fun m target => m.set target.name target.free) GoMap.empty
          match placePrints targets prints free with
          | none => none
          | some moves =>
            let names := targets.map (·.name)
            some ⟨moves, names.take maxHintTargets, names⟩

/-! ## The simulator -/

structure BinState where
  name : String
  free : Int
  cap : Int

def nodeSchedulable (node : Node) (avoidSpot : Bool) : Bool :=
  !(node.unavailableAsTarget || (avoidSpot && node.preemptible))

/-- Fuller bins last, then by name. -/
def BinState.Before (a b : BinState) : Prop := b.free < a.free ∨ a.free = b.free ∧ a.name ≤ b.name

instance : DecidableRel BinState.Before := fun a b =>
  inferInstanceAs (Decidable (b.free < a.free ∨ a.free = b.free ∧ a.name ≤ b.name))

def schedulableBins (snap : ClusterSnapshot) (cfg : Config) (pool : String) : List BinState :=
  (((snap.poolNodes pool).filter (nodeSchedulable · cfg.avoidAsTarget)).map
    fun node => ⟨node.name, node.freeGPUs, node.totalGPUs⟩).insertionSort BinState.Before

def binIndexByName (bins : List BinState) : GoMap String Nat :=
  bins.zipIdx.foldl (fun index bin => index.set bin.1.name bin.2) GoMap.empty

/-- Take the replacement capacity of each move. -/
def consumeMoves (index : GoMap String Nat) : List SurgeMove → List BinState →
    Option (List BinState)
  | [], bins => some bins
  | move :: rest, bins =>
    if move.targetNode ∉ index.keys then none
    else
      match bins[index.get move.targetNode]? with
      | none => none
      | some bin =>
        if move.gpus ≤ 0 ∨ bin.free < move.gpus then none
        else
          consumeMoves index rest (bins.modify (index.get move.targetNode) fun bin =>
            { bin with free := bin.free - move.gpus })

/-- Give back the source capacity of each move, up to the capacity of the bin. -/
def releaseMoves (index : GoMap String Nat) (moves : List SurgeMove) (bins : List BinState) :
    List BinState :=
  moves.foldl (fun bins move =>
    if move.fromNode ∈ index.keys then
      bins.modify (index.get move.fromNode) fun bin =>
        { bin with free := min (bin.free + move.gpus) bin.cap }
    else bins) bins

def simulateSurgePlan (observed : List BinState) (moves : List SurgeMove) :
    Option (List BinState) :=
  (consumeMoves (binIndexByName observed) moves observed).map
    (releaseMoves (binIndexByName observed) moves)

end Ome.Alfred
